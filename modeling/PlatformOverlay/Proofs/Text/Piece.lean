import Mathlib.Data.String.Basic
import PlatformOverlay.Text.Position

/-!
# Pieces of a text by their byte offsets

A piece of a text is given by the byte offsets where it begins and where it ends, both between
characters (`IsPiece`).  The position of an offset is where the text in front of it leads
(`position_ofText`).
-/

namespace PlatformOverlay.Text

/-- This is what the text holds from one byte offset to another. -/
def IsPiece (text : String) (start stop : Nat) (piece : String) : Prop :=
  ∃ front back, text = front ++ piece ++ back ∧ front.utf8ByteSize = start ∧
    (front ++ piece).utf8ByteSize = stop

theorem utf8Len_toList (text : String) : String.utf8Len text.toList = text.utf8ByteSize :=
  String.utf8Len_toList text

/-- A text is cut in one way only at a given number of bytes, since no character is empty in
UTF-8. -/
theorem eq_of_utf8Len_eq {as bs cs ds : List Char} (h : as ++ bs = cs ++ ds)
    (size : String.utf8Len as = String.utf8Len cs) : as = cs ∧ bs = ds := by
  rcases List.append_eq_append_iff.1 h with ⟨es, rfl, rfl⟩ | ⟨es, rfl, rfl⟩
  · obtain rfl : es = [] := String.utf8Len_eq_zero.1 (by simpa using size)
    simp
  · obtain rfl : es = [] := String.utf8Len_eq_zero.1 (by simpa using size)
    simp

theorem IsPiece.unique {text p q : String} {start stop : Nat} (hp : IsPiece text start stop p)
    (hq : IsPiece text start stop q) : p = q := by
  obtain ⟨front, back, rfl, rfl, rfl⟩ := hp
  obtain ⟨front', back', e, starts, stops⟩ := hq
  simp only [← String.toList_inj, String.toList_append, List.append_assoc] at e ⊢
  simp only [← utf8Len_toList, String.toList_append, String.utf8Len_append] at starts stops
  obtain ⟨-, e⟩ := eq_of_utf8Len_eq e starts.symm
  exact (eq_of_utf8Len_eq e (by omega)).1

/-! ## Cutting a text -/

/-- The characters of the given number of bytes, and those behind them. -/
def splitBytes? (size : Nat) : List Char → Option (List Char × List Char)
  | [] => if size = 0 then some ([], []) else none
  | c :: cs =>
      if size = 0 then some ([], c :: cs)
      else if c.utf8Size ≤ size then
        (splitBytes? (size - c.utf8Size) cs).map fun s ↦ (c :: s.1, s.2)
      else none

/-- The text from one byte offset to another, if they are in order and both between characters. -/
def piece? (text : String) (start stop : Nat) : Option String :=
  if start ≤ stop then
    (splitBytes? start text.toList).bind fun front ↦
      (splitBytes? (stop - start) front.2).map fun s ↦ String.ofList s.1
  else none

/-- Cutting at a byte offset gives a front of that many bytes and what is behind it, and fails
where the offset is inside a character. -/
theorem splitBytes?_eq_some_iff {size : Nat} {cs front back : List Char} :
    splitBytes? size cs = some (front, back) ↔ cs = front ++ back ∧
    String.utf8Len front = size := by
  induction cs generalizing size front with
  | nil =>
    rw [splitBytes?]
    constructor
    · split
      · rename_i zero
        rintro ⟨⟩
        exact ⟨rfl, zero.symm⟩
      · rintro ⟨⟩
    · rintro ⟨e, rfl⟩
      obtain ⟨rfl, rfl⟩ := List.append_eq_nil_iff.1 e.symm
      rfl
  | cons c cs ih =>
    have positive := c.utf8Size_pos
    rw [splitBytes?]
    constructor
    · split
      · rename_i zero
        rintro ⟨⟩
        exact ⟨rfl, zero.symm⟩
      split
      · intro h
        obtain ⟨⟨front', back'⟩, hs, e⟩ := Option.map_eq_some_iff.1 h
        obtain ⟨rfl, rfl⟩ := Prod.mk.inj e
        obtain ⟨rfl, size'⟩ := ih.1 hs
        refine ⟨rfl, ?_⟩
        simp only [String.utf8Len_cons, size']
        omega
      · rintro ⟨⟩
    · rintro ⟨e, rfl⟩
      cases front with
      | nil =>
        obtain rfl : c :: cs = back := e
        rfl
      | cons d front =>
        obtain ⟨rfl, rfl⟩ := List.cons.inj e
        rw [String.utf8Len_cons, if_neg (by omega), if_pos (by omega), Nat.add_sub_cancel,
          ih.2 ⟨rfl, rfl⟩]
        rfl

/-- The slice of two byte offsets is the piece that lies between them. -/
theorem piece?_eq_some_iff {text p : String} {start stop : Nat} :
    piece? text start stop = some p ↔ IsPiece text start stop p := by
  rw [piece?]
  constructor
  · intro h
    split at h
    · obtain ⟨⟨front, rest⟩, hf, h⟩ := Option.bind_eq_some_iff.1 h
      obtain ⟨⟨piece, back⟩, hp, rfl⟩ := Option.map_eq_some_iff.1 h
      obtain ⟨e, size⟩ := splitBytes?_eq_some_iff.1 hf
      obtain ⟨e', size'⟩ := splitBytes?_eq_some_iff.1 hp
      refine ⟨String.ofList front, String.ofList back, ?_, ?_, ?_⟩
      · rw [← String.toList_inj, e]
        simp only [String.toList_append, String.toList_ofList, List.append_assoc]
        exact congrArg (front ++ ·) e'
      · rw [String.utf8ByteSize_ofList, size]
      · rw [String.utf8ByteSize_append, String.utf8ByteSize_ofList, String.utf8ByteSize_ofList,
          size, size']
        omega
    · cases h
  · rintro ⟨front, back, rfl, rfl, rfl⟩
    have first : splitBytes? front.utf8ByteSize (front ++ p ++ back).toList =
        some (front.toList, p.toList ++ back.toList) :=
      splitBytes?_eq_some_iff.2 ⟨by simp, utf8Len_toList front⟩
    have second : splitBytes? p.utf8ByteSize (p.toList ++ back.toList) =
        some (p.toList, back.toList) :=
      splitBytes?_eq_some_iff.2 ⟨rfl, utf8Len_toList p⟩
    rw [String.utf8ByteSize_append, if_pos (Nat.le_add_right _ _), first, Option.bind_some,
      Nat.add_sub_cancel_left, second]
    simp

/-! ## Positions -/

/-- A line starts behind the offset its text starts at. -/
theorem lt_of_mem_startsAfter {offset start : Nat} {cs : List Char}
    (h : start ∈ LineIndex.startsAfter offset cs) : offset < start := by
  induction cs generalizing offset with
  | nil => simp [LineIndex.startsAfter] at h
  | cons c cs ih =>
    rw [LineIndex.startsAfter] at h
    split at h
    · rcases List.mem_cons.1 h with rfl | h
      · exact Nat.lt_succ_self offset
      · exact (Nat.lt_succ_self offset).trans (ih h)
    · exact (Nat.le_add_right _ _).trans_lt (ih h)

/-- Going over a text from a position, line by line. -/
theorem foldl_step_eq {offset stop : Nat} {p : Position} (column : p.column ≤ offset)
    (front back : List Char) (size : stop = offset + String.utf8Len front) :
    front.foldl Position.step p =
      let passed := (LineIndex.startsAfter offset (front ++ back)).takeWhile (· ≤ stop)
      ⟨p.line + passed.length, stop - passed.getLastD (offset - p.column)⟩ := by
  induction front generalizing offset p with
  | nil =>
    obtain rfl : stop = offset := size
    have none : (LineIndex.startsAfter stop back).takeWhile (· ≤ stop) = [] := by
      cases h : LineIndex.startsAfter stop back with
      | nil => rfl
      | cons start starts =>
        have := lt_of_mem_startsAfter (h ▸ List.mem_cons_self : start ∈
          LineIndex.startsAfter stop back)
        exact List.takeWhile_cons_of_neg (by simpa using this)
    rw [List.nil_append, none]
    simp [Nat.sub_sub_self column]
  | cons c cs ih =>
    rw [String.utf8Len_cons] at size
    rw [List.foldl_cons, List.cons_append, LineIndex.startsAfter]
    split
    · rename_i lineFeed
      subst lineFeed
      have one : ('\n').utf8Size = 1 := by decide
      rw [Position.step_lineFeed, ih (Nat.zero_le (offset + 1)) (by omega),
        List.takeWhile_cons_of_pos (by simp; omega)]
      simp only [List.getLastD_cons, List.length_cons, Nat.sub_zero]
      rw [Nat.add_right_comm, Nat.add_assoc]
    · rename_i other
      have line : (p.step c).column ≤ offset + c.utf8Size := by
        rw [Position.step_of_ne p other]
        exact Nat.add_le_add_right column _
      rw [ih line (by omega), Position.step_of_ne p other, Nat.add_sub_add_right]

/-- The position of an offset is where the text in front of it leads. -/
theorem position_ofText (front back : String) :
    (LineIndex.ofText (front ++ back)).position front.utf8ByteSize =
      Position.origin.advance front := by
  have size : front.utf8ByteSize = 0 + String.utf8Len front.toList := by
    rw [utf8Len_toList, Nat.zero_add]
  rw [Position.advance, foldl_step_eq (Nat.zero_le 0) front.toList back.toList size,
    LineIndex.position, LineIndex.ofText, String.toList_append]
  simp [Position.origin]

end PlatformOverlay.Text
