import PlatformOverlay.Proofs.Imports.Statement
import Mathlib.Data.List.Induction

/-!
# Reading an imported name character by character

The imported name of a statement may have blanks around its parts.  `scan` follows it with one state
at a time, and what `qualifiedName?` reads is what `scan` accepts (`isSome_qualifiedName?`).

The states are the places in such a name: in front of a part, within one, in the blanks behind one
and behind the star, with or without a dot so far. With them, what is read of a name depends on
where its front part has led to, so that a longer name can be compared with a shorter one that ends
in the same way.
-/

namespace PlatformOverlay.Imports

open Text (isBlank dropBlanks dropBlanksEnd)

/-- Where in an imported name a character stands, and whether a dot was seen before. -/
inductive Place where
  | before (dotted : Bool)
  | within (dotted : Bool)
  | after (dotted : Bool)
  | starred
deriving DecidableEq, Repr

namespace Place

def next : Place → Char → Option Place
  | .before dotted, c =>
      if isBlank c then some (.before dotted)
      else if isNameChar c then some (.within dotted)
      else if c = '*' ∧ dotted then some .starred else none
  | .within dotted, c =>
      if isBlank c then some (.after dotted)
      else if isNameChar c then some (.within dotted)
      else if c = '.' then some (.before true) else none
  | .after dotted, c =>
      if isBlank c then some (.after dotted)
      else if c = '.' then some (.before true) else none
  | .starred, c => if isBlank c then some .starred else none

def scan (p : Place) (cs : List Char) : Option Place := cs.foldlM next p

/-- A name behind a dot, or a star, is there. -/
def complete : Place → Bool
  | .before _ => false
  | .within dotted | .after dotted => dotted
  | .starred => true

@[simp] theorem scan_nil (p : Place) : scan p [] = some p := rfl

theorem scan_cons (p : Place) (c : Char) (cs : List Char) :
    scan p (c :: cs) = (p.next c).bind (scan · cs) := rfl

/-- The scanner reads a text from where the text in front of it has led. -/
theorem scan_append (p : Place) (xs ys : List Char) :
    scan p (xs ++ ys) = (scan p xs).bind (scan · ys) :=
  List.foldlM_append

/-- What was read without a dot on the way to a place. -/
inductive Reads (dotted : Bool) : List Char → Place → Prop
  | before {gap : List Char} : gap.all isBlank = true → Reads dotted gap (.before dotted)
  | within {gap name : List Char} : gap.all isBlank = true → isName name = true →
      Reads dotted (gap ++ name) (.within dotted)
  | after {gap name gap' : List Char} : gap.all isBlank = true → isName name = true →
      gap'.all isBlank = true → Reads dotted (gap ++ name ++ gap') (.after dotted)
  | starred {gap gap' : List Char} : dotted = true → gap.all isBlank = true →
      gap'.all isBlank = true → Reads dotted (gap ++ ['*'] ++ gap') .starred

theorem all_concat {p : Char → Bool} {cs : List Char} {c : Char} (h : cs.all p = true)
    (hc : p c = true) : (cs ++ [c]).all p = true := by
  rw [List.all_append, h, List.all_cons, hc]
  rfl

/-- A name goes on as one with each of its characters. -/
theorem isName_concat {name : List Char} {c : Char} (h : name.all isNameChar = true)
    (hc : isNameChar c = true) : isName (name ++ [c]) = true := by
  rw [isName, all_concat h hc]
  simp

/-- Any character but a dot is read within the piece that is open. -/
theorem Reads.next {dotted : Bool} {cs : List Char} {p q : Place} {c : Char} (h : Reads dotted cs p)
    (hq : p.next c = some q) (hc : c ≠ '.') : Reads dotted (cs ++ [c]) q := by
  cases h with
  | before hgap =>
    simp only [Place.next] at hq
    split at hq
    next blank => cases hq; exact .before (all_concat hgap blank)
    · split at hq
      next letter => cases hq; exact .within hgap (@isName_concat [] _ rfl letter)
      · split at hq
        next star =>
          cases hq
          obtain ⟨rfl, rfl⟩ := star
          simpa using @Reads.starred _ _ [] rfl hgap rfl
        · cases hq
  | within hgap hname =>
    simp only [Place.next] at hq
    split at hq
    next blank => cases hq; exact .after hgap hname (@all_concat _ [] _ rfl blank)
    · split at hq
      next letter =>
        cases hq
        rw [isName, Bool.and_eq_true] at hname
        rw [List.append_assoc]
        exact .within hgap (isName_concat hname.2 letter)
      · cases hq
  | after hgap hname hgap' =>
    simp only [Place.next] at hq
    split at hq
    next blank =>
      cases hq
      rw [List.append_assoc]
      exact .after hgap hname (all_concat hgap' blank)
    · cases hq
  | starred dot hgap hgap' =>
    simp only [Place.next] at hq
    split at hq
    next blank =>
      cases hq
      rw [List.append_assoc]
      exact .starred dot hgap (all_concat hgap' blank)
    · cases hq

/-- Without a dot, the scanner stays in one piece, and its place describes what has been read of
it. -/
theorem reads_of_scan {dotted : Bool} {cs : List Char} {p : Place} (hdot : '.' ∉ cs)
    (h : scan (.before dotted) cs = some p) : Reads dotted cs p := by
  induction cs using List.reverseRecOn generalizing p with
  | nil =>
    cases h
    exact .before rfl
  | append_singleton cs c ih =>
    rw [scan_append, Option.bind_eq_some_iff] at h
    obtain ⟨q, hq, hp⟩ := h
    rw [scan_cons, Option.bind_eq_some_iff] at hp
    obtain ⟨r, hr, hp⟩ := hp
    cases hp
    rw [List.mem_append, not_or] at hdot
    exact (ih hdot.1 hq).next hr fun e ↦ hdot.2 (by simp [e])

theorem scan_before {dotted : Bool} {gap : List Char} (h : gap.all isBlank = true) :
    scan (.before dotted) gap = some (.before dotted) := by
  induction gap with
  | nil => rfl
  | cons c gap ih =>
    rw [List.all_cons, Bool.and_eq_true] at h
    simp only [scan_cons, next, if_pos h.1, Option.bind_some, ih h.2]

theorem scan_within {dotted : Bool} {name : List Char} (h : name.all isNameChar = true) :
    scan (.within dotted) name = some (.within dotted) := by
  induction name with
  | nil => rfl
  | cons c name ih =>
    rw [List.all_cons, Bool.and_eq_true] at h
    have blank := isBlank_of_isNameChar h.1
    simp only [scan_cons, next, blank, Bool.false_eq_true, if_false, if_pos h.1, Option.bind_some,
      ih h.2]

theorem scan_name {dotted : Bool} {name : List Char} (h : isName name = true) :
    scan (.before dotted) name = some (.within dotted) := by
  obtain ⟨c, rest, rfl, hc⟩ := exists_cons_of_isName h
  rw [isName, Bool.and_eq_true, List.all_cons, Bool.and_eq_true] at h
  have blank := isBlank_of_isNameChar hc
  simp only [scan_cons, next, blank, Bool.false_eq_true, if_false, if_pos hc, Option.bind_some,
    scan_within h.2.2]

theorem scan_after {dotted : Bool} {gap : List Char} (h : gap.all isBlank = true) :
    scan (.after dotted) gap = some (.after dotted) := by
  induction gap with
  | nil => rfl
  | cons c gap ih =>
    rw [List.all_cons, Bool.and_eq_true] at h
    simp only [scan_cons, next, if_pos h.1, Option.bind_some, ih h.2]

theorem scan_starred {gap : List Char} (h : gap.all isBlank = true) :
    scan .starred gap = some .starred := by
  induction gap with
  | nil => rfl
  | cons c gap ih =>
    rw [List.all_cons, Bool.and_eq_true] at h
    simp only [scan_cons, next, if_pos h.1, Option.bind_some, ih h.2]

/-- Behind a name there may be blanks. -/
theorem scan_behind (dotted : Bool) {gap : List Char} (h : gap.all isBlank = true) :
    ∃ p, scan (.within dotted) gap = some p ∧ (p = .within dotted ∨ p = .after dotted) := by
  cases gap with
  | nil => exact ⟨_, rfl, .inl rfl⟩
  | cons c gap =>
    rw [List.all_cons, Bool.and_eq_true] at h
    refine ⟨.after dotted, ?_, .inr rfl⟩
    simp only [scan_cons, next, if_pos h.1, Option.bind_some, scan_after h.2]

end Place

/-! ## Pieces between dots -/

/-- A piece is what is left of it between blanks. -/
theorem exists_trimmed (cs : List Char) : ∃ gap gap', cs = gap ++ trimmed cs ++ gap' ∧
    gap.all isBlank = true ∧ gap'.all isBlank = true := by
  obtain ⟨gap, e, hgap⟩ := Text.exists_dropBlanks cs
  obtain ⟨gap', e', hgap'⟩ := Text.exists_dropBlanksEnd (dropBlanks cs)
  exact ⟨gap, gap', by rw [trimmed, List.append_assoc, ← e', ← e], hgap, hgap'⟩

theorem trimmed_eq {gap core gap' : List Char} (hgap : gap.all isBlank = true)
    (hgap' : gap'.all isBlank = true) (nonempty : core ≠ [])
    (first : core.head?.any isBlank = false) (last : core.getLast?.any isBlank = false) :
    trimmed (gap ++ core ++ gap') = core := by
  obtain ⟨c, rest, rfl⟩ := List.exists_cons_of_ne_nil nonempty
  rw [trimmed, List.append_assoc, Text.dropBlanks_append hgap,
    Text.dropBlanks_eq_self (by simpa using first),
    Text.dropBlanksEnd_append hgap', Text.dropBlanksEnd_eq_self last]

theorem trimmed_name {gap name gap' : List Char} (hgap : gap.all isBlank = true)
    (hgap' : gap'.all isBlank = true) (h : isName name = true) :
    trimmed (gap ++ name ++ gap') = name := by
  have none : ∀ c ∈ name, isBlank c = false := fun c hc ↦
    isBlank_of_isNameChar (isNameChar_of_mem h hc)
  obtain ⟨c, rest, rfl, -⟩ := exists_cons_of_isName h
  refine trimmed_eq hgap hgap' (by simp) (by simpa using none c) ?_
  cases hl : (c :: rest).getLast? with
  | none => rfl
  | some d => simpa using none d (List.mem_of_getLast? hl)

namespace Place

/-- A piece that a dot ends is a name with blanks around it. -/
theorem scan_dot (dotted : Bool) {piece : List Char} (h : '.' ∉ piece) :
    (scan (.before dotted) piece).bind (·.next '.') =
      if isName (trimmed piece) then some (.before true) else none := by
  split
  next named =>
    obtain ⟨gap, gap', e, hgap, hgap'⟩ := exists_trimmed piece
    obtain ⟨p, hp, hplace⟩ := scan_behind dotted hgap'
    rw [e, scan_append, scan_append, scan_before hgap, Option.bind_some, scan_name named,
      Option.bind_some, hp]
    rcases hplace with rfl | rfl <;> rfl
  next unnamed =>
    cases hs : scan (.before dotted) piece with
    | none => rfl
    | some p =>
      cases reads_of_scan h hs with
      | before _ => rfl
      | within hgap hname =>
        rw [← List.append_nil (_ ++ _), trimmed_name hgap rfl hname] at unnamed
        exact absurd hname unnamed
      | after hgap hname hgap' =>
        rw [trimmed_name hgap hgap' hname] at unnamed
        exact absurd hname unnamed
      | starred => rfl

/-- The last piece is a name or a star. -/
theorem complete_scan {piece : List Char} (h : '.' ∉ piece) :
    (scan (.before true) piece).any complete =
      (isName (trimmed piece) || decide (trimmed piece = ['*'])) := by
  obtain ⟨gap, gap', e, hgap, hgap'⟩ := exists_trimmed piece
  by_cases named : isName (trimmed piece) = true
  · obtain ⟨p, hp, hplace⟩ := scan_behind true hgap'
    rw [named, Bool.true_or, e, scan_append, scan_append, scan_before hgap, Option.bind_some,
      scan_name named, Option.bind_some, hp]
    rcases hplace with rfl | rfl <;> rfl
  · by_cases star : trimmed piece = ['*']
    · rw [star] at e
      have read : scan (.before true) ['*'] = some .starred := by decide
      rw [decide_eq_true star, Bool.or_true, e, scan_append, scan_append, scan_before hgap,
        Option.bind_some, read, Option.bind_some, scan_starred hgap']
      rfl
    · rw [Bool.eq_false_iff.2 named, decide_eq_false star]
      cases hs : scan (.before true) piece with
      | none => rfl
      | some p =>
        cases reads_of_scan h hs with
        | before _ => rfl
        | within hgap hname =>
          rw [← List.append_nil (_ ++ _), trimmed_name hgap rfl hname] at named
          exact absurd hname named
        | after hgap hname hgap' =>
          rw [trimmed_name hgap hgap' hname] at named
          exact absurd hname named
        | starred _ hgap hgap' =>
          exact absurd (trimmed_eq hgap hgap' (by simp) (by decide) (by decide)) star

/-- A text without a dot is no qualified name. -/
theorem complete_scan_undotted {cs : List Char} (h : '.' ∉ cs) :
    (scan (.before false) cs).any complete = false := by
  cases hs : scan (.before false) cs with
  | none => rfl
  | some p =>
    cases reads_of_scan h hs with
    | before _ => rfl
    | within _ _ => rfl
    | after _ _ _ => rfl
    | starred dotted => cases dotted

/-- A name, or a star, behind pieces that are names. -/
theorem complete_scan_intercalate {outer : List (List Char)} {last : List Char} {dotted : Bool}
    (nonempty : outer ≠ []) (h : ∀ piece ∈ outer, '.' ∉ piece) (hlast : '.' ∉ last) :
    (scan (.before dotted) (['.'].intercalate (outer ++ [last]))).any complete =
      (outer.all (isName <| trimmed ·) &&
        (isName (trimmed last) || decide (trimmed last = ['*']))) := by
  induction outer generalizing dotted with
  | nil => exact absurd rfl nonempty
  | cons piece outer ih =>
    have split : ['.'].intercalate (piece :: outer ++ [last]) =
        piece ++ '.' :: ['.'].intercalate (outer ++ [last]) := by
      cases outer <;> simp
    have step := scan_dot dotted (h piece List.mem_cons_self)
    rw [split, scan_append]
    simp only [scan_cons, ← Option.bind_assoc, step, List.all_cons]
    split
    next named =>
      rw [Option.bind_some, named, Bool.true_and]
      cases outer with
      | nil => simpa using complete_scan hlast
      | cons next outer => exact ih (by simp) fun p hp ↦ h p (List.mem_cons_of_mem _ hp)
    next unnamed => simp [Bool.eq_false_iff.2 unnamed]

end Place

/-- A qualified name is read where the scanner ends in a complete place: a test of the pieces
has become one of the characters. -/
theorem isSome_qualifiedName? (cs : List Char) :
    (qualifiedName? cs).isSome = (Place.scan (.before false) cs).any Place.complete := by
  have whole : ['.'].intercalate (Text.splitChars '.' cs) = cs := Text.intercalate_splitChars cs
  have undotted : ∀ piece ∈ Text.splitChars '.' cs, '.' ∉ piece :=
    fun _ h ↦ Text.notMem_of_mem_splitChars h
  obtain ⟨outer, last, e⟩ := List.eq_nil_or_concat' (Text.splitChars '.' cs) |>.resolve_left
    (Text.splitChars_ne_nil '.' cs)
  rw [e] at whole undotted
  have hlast := undotted last (by simp)
  rw [qualifiedName?, e]
  simp only [List.map_append, List.map_cons, List.map_nil, List.dropLast_concat]
  by_cases nonempty : outer = []
  · subst nonempty
    rw [← whole]
    simp [Place.complete_scan_undotted hlast]
  · rw [← whole,
      Place.complete_scan_intercalate nonempty (fun p hp ↦ undotted p (by simp [hp])) hlast]
    have names : (outer.map trimmed).all isName = outer.all (isName <| trimmed ·) := List.all_map
    have first : (outer.map trimmed).isEmpty = false := by simp [nonempty]
    rw [names, first, Bool.false_or, List.getLastD_eq_getLast?, List.getLast?_concat,
      Option.getD_some]
    cases outer.all (isName <| trimmed ·) with
    | false => simp
    | true =>
      by_cases star : trimmed last = ['*']
      · simp [star]
      · cases named : isName (trimmed last) <;> simp [star]

/-! ## Longer names -/

namespace Place

/-- The place once a dot was seen. -/
def dot : Place → Place
  | .before _ => .before true
  | .within _ => .within true
  | .after _ => .after true
  | .starred => .starred

/-- A complete place is one with a dot in front as well. -/
theorem complete_dot {p : Place} (h : p.complete = true) : p.dot.complete = true := by
  cases p with
  | before _ => cases h
  | within _ => rfl
  | after _ => rfl
  | starred => rfl

/-- A dot in front of a text does not change how the text is read. -/
theorem next_dot {p q : Place} {c : Char} (h : p.next c = some q) : p.dot.next c = some q.dot := by
  cases p with
  | before d =>
    simp only [next, dot] at h ⊢
    split at h
    next blank => cases h; exact if_pos blank
    next blank =>
      rw [if_neg blank]
      split at h
      next letter => cases h; exact if_pos letter
      next letter =>
        rw [if_neg letter]
        split at h
        next star => cases h; exact if_pos ⟨star.1, trivial⟩
        · cases h
  | within d =>
    simp only [next, dot] at h ⊢
    split at h
    next blank => cases h; exact if_pos blank
    next blank =>
      rw [if_neg blank]
      split at h
      next letter => cases h; exact if_pos letter
      next letter =>
        rw [if_neg letter]
        split at h
        next isDot => cases h; exact if_pos isDot
        · cases h
  | after d =>
    simp only [next, dot] at h ⊢
    split at h
    next blank => cases h; exact if_pos blank
    next blank =>
      rw [if_neg blank]
      split at h
      next isDot => cases h; exact if_pos isDot
      · cases h
  | starred =>
    rw [dot, h]
    simp only [next] at h
    split at h
    · cases h; rfl
    · cases h

/-- Whatever is read without a dot in front is also read with one. -/
theorem scan_of_dot {p q : Place} {cs : List Char} (h : p.scan cs = some q) :
    p.dot.scan cs = some q.dot := by
  induction cs generalizing p with
  | nil =>
    cases h
    rfl
  | cons c cs ih =>
    rw [scan_cons, Option.bind_eq_some_iff] at h
    obtain ⟨r, hr, h⟩ := h
    rw [scan_cons, next_dot hr, Option.bind_some, ih h]

/-- It makes no difference to a name whether it has begun. -/
theorem scan_within_eq_before {dotted : Bool} {cs : List Char}
    (h : cs.head?.any isNameChar = true) :
    scan (.within dotted) cs = scan (.before dotted) cs := by
  cases cs with
  | nil => cases h
  | cons c cs =>
    have letter : isNameChar c = true := by simpa using h
    have blank := isBlank_of_isNameChar letter
    simp [scan_cons, next, letter, blank]

/-- Names joined by dots are read to the end of the last. -/
theorem scan_intercalate (dotted : Bool) {pieces : List (List Char)} (nonempty : pieces ≠ [])
    (h : pieces.all isName = true) :
    ∃ d, scan (.before dotted) (['.'].intercalate pieces) = some (.within d) := by
  induction pieces generalizing dotted with
  | nil => exact absurd rfl nonempty
  | cons piece pieces ih =>
    rw [List.all_cons, Bool.and_eq_true] at h
    cases pieces with
    | nil => exact ⟨dotted, by rw [List.intercalate_singleton]; exact scan_name h.1⟩
    | cons next pieces =>
      obtain ⟨d, hd⟩ := ih true (by simp) h.2
      refine ⟨d, ?_⟩
      rw [List.intercalate_cons_cons, List.append_assoc, scan_append, scan_name h.1,
        Option.bind_some,
        List.singleton_append, scan_cons]
      exact hd

/-- A dotted name can be put in the place of a name. -/
theorem scan_dotted (dotted : Bool) {outer : List Char} (h : isDottedName outer = true) :
    ∃ d, scan (.before dotted) outer = some (.within d) ∧ scan (.within dotted) outer =
      some (.within d) := by
  obtain ⟨d, hd⟩ := scan_intercalate dotted (Text.splitChars_ne_nil '.' outer) h
  rw [Text.intercalate_splitChars] at hd
  obtain ⟨c, rest, rfl, hc⟩ := exists_cons_of_isDottedName h
  exact ⟨d, hd, by rwa [scan_within_eq_before (by simpa using hc)]⟩

/-- A dotted name and a dot may stand in front of a name. -/
theorem scan_longer {outer short : List Char} (houter : isDottedName outer = true)
    (hshort : short.head?.any isNameChar = true) {p p' q : Place} (hp : p' = p ∨ p' = p.dot)
    (h : p.scan short = some q) : p'.scan (outer ++ '.' :: short) = some q.dot := by
  have longer {d : Bool} (hd : p' = .before d ∨ p' = .within d) :
      p'.scan (outer ++ '.' :: short) = scan (.before true) short := by
    obtain ⟨d', before, within⟩ := scan_dotted d houter
    rw [scan_append]
    rcases hd with rfl | rfl
    · rw [before]; rfl
    · rw [within]; rfl
  cases p with
  | before d =>
    rw [← scan_of_dot h]
    rcases hp with rfl | rfl
    · exact longer (.inl rfl)
    · exact longer (.inl rfl)
  | within d =>
    rw [scan_within_eq_before hshort] at h
    rw [← scan_of_dot h]
    rcases hp with rfl | rfl
    · exact longer (.inr rfl)
    · exact longer (.inr rfl)
  | after d =>
    cases short with
    | nil => cases hshort
    | cons c rest =>
      have letter : isNameChar c = true := by simpa using hshort
      have no_dot : c ≠ '.' := by rintro rfl; exact absurd letter (by decide)
      simp [scan_cons, next, isBlank_of_isNameChar letter, no_dot] at h
  | starred =>
    cases short with
    | nil => cases hshort
    | cons c rest =>
      have letter : isNameChar c = true := by simpa using hshort
      simp [scan_cons, next, isBlank_of_isNameChar letter] at h

end Place

end PlatformOverlay.Imports
