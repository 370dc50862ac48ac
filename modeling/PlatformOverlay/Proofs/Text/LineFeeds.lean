import Mathlib.Data.List.Induction
import Mathlib.Data.Prod.Lex
import Mathlib.Order.Monotone.Basic
import PlatformOverlay.Proofs.Text.Piece

/-!
# Line feeds among the bytes of a text

No byte of a character's encoding is a line feed but that of the line feed itself
(`not_mem_utf8EncodeChar`), so the line starts that are found character by character are those
behind the line feeds among the bytes (`startsAfter_eq`).  An offset may then lie anywhere, also
inside a character or past the end: its line is the number of line feeds in front of it
(`line_position`), its column is counted from behind the last of them (`exists_beginsLastLine`),
and positions grow with the offset (`strictMono_position`).
-/

namespace PlatformOverlay.Text

/-- The bytes of a text. -/
def bytes (text : String) : List UInt8 := text.toUTF8.data.toList

def lineFeed : UInt8 := 10

/-- The last line of `front` begins at the offset `start`: behind a line feed or where `front`
begins, and there is no line feed from there on. -/
structure BeginsLastLine (front : List UInt8) (start : Nat) : Prop where
  le : start ≤ front.length
  behind : start = 0 ∨ front[start - 1]? = some lineFeed
  last : lineFeed ∉ front.drop start

/-! ## Bytes of characters -/

/-- The bytes of a text are the encodings of its characters one after the other. -/
theorem bytes_eq_flatMap (text : String) :
    bytes text = text.toList.flatMap String.utf8EncodeChar := by
  rw [bytes, String.toUTF8_eq_toByteArray, ← String.utf8Encode_toList, List.utf8Encode,
    List.data_toByteArray]

theorem length_bytes (text : String) : (bytes text).length = text.utf8ByteSize := by
  rw [bytes, String.toUTF8_eq_toByteArray]
  rfl

theorem utf8EncodeChar_lineFeed : String.utf8EncodeChar '\n' = [lineFeed] := by decide

/-- No other character has the line feed's byte in its encoding: the bytes of a longer encoding
all have the top bit. -/
theorem not_mem_utf8EncodeChar {c : Char} (other : c ≠ '\n') :
    lineFeed ∉ String.utf8EncodeChar c := by
  have ne : c.val.toNat ≠ 10 := fun e ↦ other (Char.toNat_inj.1 e)
  fun_cases String.utf8EncodeChar c <;>
    simp [lineFeed, ← UInt8.toNat_inj] <;> omega

/-! ## Line starts by bytes -/

/-- The offsets behind the line feeds of `bs`, the bytes from the given offset on. -/
def startsBehind : Nat → List UInt8 → List Nat
  | _, [] => []
  | offset, b :: bs =>
      if b = lineFeed then (offset + 1) :: startsBehind (offset + 1) bs
      else startsBehind (offset + 1) bs

/-- The line starts of two stretches are those of the first and, moved on by its length, those
of the second. -/
theorem startsBehind_append (offset : Nat) (as bs : List UInt8) :
    startsBehind offset (as ++ bs) =
      startsBehind offset as ++ startsBehind (offset + as.length) bs := by
  induction as generalizing offset with
  | nil => rfl
  | cons a as ih =>
    rw [List.cons_append, startsBehind, startsBehind, ih, List.length_cons, Nat.add_assoc,
      Nat.add_comm 1]
    split <;> rfl

/-- A stretch with no line feed starts no line. -/
theorem startsBehind_eq_nil {offset : Nat} {bs : List UInt8} (h : lineFeed ∉ bs) :
    startsBehind offset bs = [] := by
  induction bs generalizing offset with
  | nil => rfl
  | cons b bs ih =>
    obtain ⟨first, rest⟩ := not_or.1 (mt List.mem_cons.2 h)
    rw [startsBehind, if_neg (Ne.symm first), ih rest]

theorem length_startsBehind (offset : Nat) (bs : List UInt8) :
    (startsBehind offset bs).length = bs.count lineFeed := by
  induction bs generalizing offset with
  | nil => rfl
  | cons b bs ih =>
    rw [startsBehind, List.count_cons]
    by_cases h : b = lineFeed <;> simp [h, ih]

/-- Lines start at the same offsets whether characters are gone through or bytes. -/
theorem startsAfter_eq (offset : Nat) (cs : List Char) :
    LineIndex.startsAfter offset cs = startsBehind offset (cs.flatMap String.utf8EncodeChar) := by
  induction cs generalizing offset with
  | nil => rfl
  | cons c cs ih =>
    rw [LineIndex.startsAfter, List.flatMap_cons, startsBehind_append, String.length_utf8EncodeChar]
    split
    next lineFeed =>
      subst lineFeed
      rw [ih, utf8EncodeChar_lineFeed]
      rfl
    next other => rw [ih, startsBehind_eq_nil (not_mem_utf8EncodeChar other), List.nil_append]

/-- A line starts behind the byte that ends the line before it, so it is past the offset and
within or at the end of the stretch. -/
theorem bounds_of_mem_startsBehind {offset start : Nat} {bs : List UInt8}
    (h : start ∈ startsBehind offset bs) : offset < start ∧ start ≤ offset + bs.length := by
  induction bs generalizing offset with
  | nil => cases h
  | cons b bs ih =>
    rw [startsBehind] at h
    rw [List.length_cons]
    split at h
    · rcases List.mem_cons.1 h with rfl | h
      · omega
      · have := ih h
        omega
    · have := ih h
      omega

/-- The starts grow strictly, which is what the binary search asks of the table. -/
theorem pairwise_startsBehind (offset : Nat) (bs : List UInt8) :
    (startsBehind offset bs).Pairwise (· < ·) := by
  induction bs generalizing offset with
  | nil => exact .nil
  | cons b bs ih =>
    rw [startsBehind]
    split
    · exact List.pairwise_cons.2 ⟨fun _ h ↦ (bounds_of_mem_startsBehind h).1, ih _⟩
    · exact ih _

/-- The line starts up to an offset are those behind the line feeds in front of it. -/
theorem takeWhile_startsBehind (offset n : Nat) (bs : List UInt8) :
    (startsBehind offset bs).takeWhile (· ≤ offset + n) = startsBehind offset (bs.take n) := by
  induction bs generalizing offset n with
  | nil => simp [startsBehind]
  | cons b bs ih =>
    cases n with
    | zero =>
      rw [List.take_zero, startsBehind.eq_1, Nat.add_zero]
      cases h : startsBehind offset (b :: bs) with
      | nil => rfl
      | cons start starts =>
        have mem : start ∈ startsBehind offset (b :: bs) := h ▸ List.mem_cons_self
        exact List.takeWhile_cons_of_neg (by simpa using (bounds_of_mem_startsBehind mem).1)
    | succ n =>
      have shift : offset + (n + 1) = (offset + 1) + n := by omega
      rw [List.take_succ_cons, startsBehind, startsBehind, shift]
      split
      · rw [List.takeWhile_cons_of_pos (by simp), ih]
      · exact ih _ _

/-! ## The last line -/

theorem getElem?_cons_append_length {α : Type} (a : α) (as bs : List α) :
    (a :: (as ++ bs))[as.length]? = some (as.getLastD a) := by
  rw [← List.cons_append, List.getElem?_append_left (by simp), List.getLastD_eq_getLast?,
    ← List.getLast?_cons, List.getLast?_eq_getElem?]
  rfl

/-- The last start of a stretch, or `0` where it has none, is where its last line begins. -/
theorem beginsLastLine_getLastD (front : List UInt8) :
    BeginsLastLine front ((startsBehind 0 front).getLastD 0) := by
  induction front using List.reverseRecOn with
  | nil => exact ⟨Nat.le_refl _, .inl rfl, List.not_mem_nil⟩
  | append_singleton bs b ih =>
    rw [startsBehind_append, Nat.zero_add, startsBehind, startsBehind.eq_1]
    split
    next lineFeed =>
      -- The new byte is a line feed: the last line is empty.
      subst lineFeed
      rw [List.getLastD_concat]
      exact ⟨by simp, .inr (by simp), by simp⟩
    next other =>
      rw [List.append_nil]
      refine ⟨ih.le.trans (by simp), ih.behind.imp_right fun h ↦ ?_, ?_⟩
      · rw [List.getElem?_append_left (List.getElem?_eq_some_iff.1 h).1, h]
      · rw [List.drop_append_of_le_length ih.le, List.mem_append, List.mem_singleton]
        exact not_or.2 ⟨ih.last, Ne.symm other⟩

/-! ## Positions of offsets -/

section

variable (text : String) (offset : Nat)

/-- The table of a text lists the starts behind the line feeds of its bytes. -/
theorem later_ofText : (LineIndex.ofText text).later = startsBehind 0 (bytes text) := by
  rw [LineIndex.ofText, startsAfter_eq, bytes_eq_flatMap]

theorem pairwise_starts : (LineIndex.ofText text).starts.Pairwise (· < ·) := by
  rw [LineIndex.starts, later_ofText]
  exact List.pairwise_cons.2
    ⟨fun _ h ↦ (bounds_of_mem_startsBehind h).1, pairwise_startsBehind _ _⟩

theorem le_of_mem_starts {text : String} {start : Nat}
    (h : start ∈ (LineIndex.ofText text).starts) :
    start ≤ text.utf8ByteSize := by
  rw [LineIndex.starts, later_ofText] at h
  rcases List.mem_cons.1 h with rfl | h
  · exact Nat.zero_le _
  · rw [← length_bytes]
    simpa using (bounds_of_mem_startsBehind h).2

/-- The position of an offset from the bytes in front of it: as many lines as start there, and
as many bytes as lie behind the last start. -/
theorem position_eq : (LineIndex.ofText text).position offset =
    ⟨(startsBehind 0 ((bytes text).take offset)).length,
      offset - (startsBehind 0 ((bytes text).take offset)).getLastD 0⟩ := by
  have passed := takeWhile_startsBehind 0 offset (bytes text)
  rw [Nat.zero_add] at passed
  rw [LineIndex.position, later_ofText, passed]

/-- The line of an offset is the number of line feeds in front of it. -/
theorem line_position : ((LineIndex.ofText text).position offset).line =
    ((bytes text).take offset).count lineFeed := by
  rw [position_eq, length_startsBehind]

/-- The entry of the table at the line of an offset is where this line begins. -/
theorem getElem?_starts :
    (LineIndex.ofText text).starts[((LineIndex.ofText text).position offset).line]? =
      some ((startsBehind 0 ((bytes text).take offset)).getLastD 0) := by
  have later : (LineIndex.ofText text).later = startsBehind 0 ((bytes text).take offset) ++
      startsBehind (0 + ((bytes text).take offset).length) ((bytes text).drop offset) := by
    rw [later_ofText, ← startsBehind_append, List.take_append_drop]
  rw [LineIndex.starts, later, position_eq]
  exact getElem?_cons_append_length _ _ _

/-- The line of an offset is in the index, and its start and the column add up to the offset. -/
theorem exists_beginsLastLine : ∃ start,
    BeginsLastLine ((bytes text).take offset) start ∧
      (LineIndex.ofText text).starts[((LineIndex.ofText text).position offset).line]? =
        some start ∧
      start + ((LineIndex.ofText text).position offset).column = offset := by
  have begins := beginsLastLine_getLastD ((bytes text).take offset)
  have short : ((bytes text).take offset).length ≤ offset := List.length_take_le _ _
  refine ⟨_, begins, getElem?_starts text offset, ?_⟩
  rw [position_eq]
  exact Nat.add_sub_cancel' (begins.le.trans short)

end

/-- A greater offset is on a later line, or on the same line in a later column. -/
theorem strictMono_position (text : String) : StrictMono fun offset ↦
    toLex (((LineIndex.ofText text).position offset).line,
      ((LineIndex.ofText text).position offset).column) := by
  intro a b less
  rw [Prod.Lex.toLex_lt_toLex]
  have line : ((LineIndex.ofText text).position a).line ≤
      ((LineIndex.ofText text).position b).line := by
    rw [line_position, line_position]
    exact (List.take_sublist_take_left less.le).count_le _
  refine line.lt_or_eq.imp_right fun same ↦ ⟨same, ?_⟩
  obtain ⟨start, -, found, sum⟩ := exists_beginsLastLine text a
  obtain ⟨start', -, found', sum'⟩ := exists_beginsLastLine text b
  -- Offsets on one line are counted from the same start.
  obtain rfl : start = start' := by
    dsimp only at same
    rw [same, found'] at found
    exact (Option.some.inj found).symm
  dsimp only
  omega

end PlatformOverlay.Text
