import PlatformOverlay.Proofs.Java.Parser.Progress
import PlatformOverlay.Proofs.Java.Respace

/-!
# What a parser depends on

Where a parser for a group, a name, a type, modifiers or an initial value has read some words, it
reads words of the same kinds in the same way, wherever they stand: what follows matters only where
it says so.

How much of a word counts is different from parser to parser, and so there are three relations, each
weaker than the one before:

* `SameShapes`: the words are the same but for their places. This is what modifiers are read by,
  where `sealed` and `non-sealed` are told by their texts.
* `SameOutlines`: the same kinds and the same operators. The ends of texts are found by these.
* `SameKinds`: the same kinds. For groups, names and types there is nothing else to look at.

The lemmas end in `_local` and each names what must not follow: a dot behind a qualified name, a
bracket behind a type.
-/

namespace PlatformOverlay.Java.Parser

variable {ws rest : List Word}

/-- The kinds of words are all that groups, names and types are read by. -/
def SameKinds (ws vs : List Word) : Prop := ws.map Word.kind = vs.map Word.kind

namespace SameKinds

variable {w : Word} {vs us : List Word}

theorem cons_inv (h : SameKinds us (w :: ws)) :
    ∃ v vs, us = v :: vs ∧ v.kind = w.kind ∧ SameKinds vs ws := by
  obtain ⟨v, vs, rfl, hv, h⟩ := List.map_eq_cons_iff.1 h
  exact ⟨v, vs, rfl, hv, h⟩

/-- Words of the same kinds as two parts are in two such parts themselves. -/
theorem append_inv (h : SameKinds us (ws ++ vs)) :
    ∃ ws' vs', us = ws' ++ vs' ∧ SameKinds ws' ws ∧ SameKinds vs' vs := by
  rw [SameKinds, List.map_append] at h
  obtain ⟨ws', vs', rfl, hw, hv⟩ := List.map_eq_append_iff.1 h
  exact ⟨ws', vs', rfl, hw, hv⟩

/-- What a reader is at depends on the first word only. -/
theorem isAt_append (h : SameKinds us ws) (ne : ws ≠ []) (kind : TokenKind) :
    isAt kind (us ++ rest) = isAt kind (ws ++ vs) := by
  obtain ⟨w, ws, rfl⟩ := List.exists_cons_of_ne_nil ne
  obtain ⟨v, vs, rfl, hv, -⟩ := h.cons_inv
  simp [isAt, hv]

end SameKinds

/-! ## Groups -/

/-- The search for the closing token, word by word. -/
theorem afterClosing_cons {opening closing : TokenKind} {depth : Nat} {w : Word} :
    afterClosing opening closing depth (w :: ws) =
      if w.kind = opening then afterClosing opening closing (depth + 1) ws
      else if w.kind = closing then
        match depth with
        | 0 => some ws
        | depth + 1 => afterClosing opening closing depth ws
      else afterClosing opening closing depth ws := by
  cases depth <;> rfl

/-- Which token closes a group is seen from the kinds of the words in it. -/
theorem afterClosing_local {opening closing : TokenKind} {depth : Nat}
    (h : afterClosing opening closing depth ws = some rest) :
    ∃ taken w, ws = taken ++ w :: rest ∧ w.kind = closing ∧ ∀ ws' rest',
      SameKinds ws' (taken ++ [w]) →
        afterClosing opening closing depth (ws' ++ rest') = some rest' := by
  fun_induction afterClosing opening closing depth ws with
  | case1 => simp at h
  | case2 depth w ws hw ih =>
    obtain ⟨taken, v, rfl, hv, again⟩ := ih h
    refine ⟨w :: taken, v, rfl, hv, fun ws' rest' hs ↦ ?_⟩
    obtain ⟨w', vs', rfl, hw', hs⟩ := hs.cons_inv
    rw [List.cons_append, afterClosing_cons, if_pos (hw'.trans hw), again _ _ hs]
  | case3 w ws ho hc =>
    cases h
    refine ⟨[], w, rfl, hc, fun ws' rest' hs ↦ ?_⟩
    obtain ⟨w', vs', rfl, hw', hs⟩ := hs.cons_inv
    obtain rfl : vs' = [] := by simpa [SameKinds] using hs
    rw [List.cons_append, afterClosing_cons, if_neg (hw' ▸ ho), if_pos (hw'.trans hc)]
    rfl
  | case4 w ws hw hc depth ih => 
    obtain ⟨taken, v, rfl, hv, again⟩ := ih h
    refine ⟨w :: taken, v, rfl, hv, fun ws' rest' hs ↦ ?_⟩
    obtain ⟨w', vs', rfl, hw', hs⟩ := hs.cons_inv
    rw [List.cons_append, afterClosing_cons, if_neg (hw' ▸ hw), if_pos (hw'.trans hc)]
    exact again _ _ hs
  | case5 depth w ws ho hc ih =>
    obtain ⟨taken, v, rfl, hv, again⟩ := ih h
    refine ⟨w :: taken, v, rfl, hv, fun ws' rest' hs ↦ ?_⟩
    obtain ⟨w', vs', rfl, hw', hs⟩ := hs.cons_inv
    rw [List.cons_append, afterClosing_cons, if_neg (hw' ▸ ho), if_neg (hw' ▸ hc)]
    exact again _ _ hs

/-- A group is read from the kinds of its words, whatever follows. -/
theorem balanced_local {opening closing : Punct}
    (h : balanced opening closing ws = .ok ((), rest)) :
    ∃ v taken w, ws = v :: (taken ++ w :: rest) ∧ w.kind = .punct closing ∧ ∀ ws' rest',
      SameKinds ws' (v :: (taken ++ [w])) → balanced opening closing (ws' ++ rest') =
        .ok ((), rest') := by
  cases ws with
  | nil => simp [balanced, fail] at h
  | cons v ws =>
    rw [balanced] at h
    split at h
    · rename_i left hl
      cases h
      obtain ⟨taken, w, rfl, hw, again⟩ := afterClosing_local hl
      refine ⟨v, taken, w, rfl, hw, fun ws' rest' hs ↦ ?_⟩
      obtain ⟨v', vs', rfl, -, hs⟩ := hs.cons_inv
      rw [List.cons_append, balanced, again _ _ hs]
    · simp [fail] at h

/-! ## Names and annotations -/

theorem segments_eq_of_not_dot (h : isAt (.punct .dot) ws = false) : segments ws = ("", ws) := by
  match ws with
  | [] | [_] => rfl
  | dot :: w :: ws =>
    rw [segments, if_neg]
    rintro ⟨hd, -⟩
    simp [isAt, hd] at h

/-- The segments of a name are read from the kinds of their words, if no further segment
follows. -/
theorem segments_local (ws : List Word) :
    ∃ taken, ws = taken ++ (segments ws).2 ∧ ∀ ws' rest', SameKinds ws' taken →
      isAt (.punct .dot) rest' = false → (segments (ws' ++ rest')).2 = rest' := by
  have none : ∀ ws' rest', SameKinds ws' [] → isAt (.punct .dot) rest' = false →
      (segments (ws' ++ rest')).2 = rest' := by
    intro ws' rest' hs hd
    obtain rfl : ws' = [] := by simpa [SameKinds] using hs
    rw [List.nil_append, segments_eq_of_not_dot hd]
  fun_induction segments ws with
  | case1 dot w ws hw rest ih =>
    obtain ⟨taken, hws, again⟩ := ih
    refine ⟨dot :: w :: taken, by simp [← hws, rest], fun ws' rest' hs hd ↦ ?_⟩
    obtain ⟨dot', _, rfl, hdot, hs'⟩ := hs.cons_inv
    obtain ⟨w', vs', rfl, hw', hs''⟩ := hs'.cons_inv
    rw [List.cons_append, List.cons_append, segments, if_pos ⟨hdot.trans hw.1, hw'.trans hw.2⟩]
    exact again _ _ hs'' hd
  | case2 => exact ⟨[], rfl, none⟩
  | case3 => exact ⟨[], rfl, none⟩

/-- A qualified name is an identifier with its segments. -/
theorem qualifiedName_eq_ok {what name : String} :
    qualifiedName what ws = .ok (name, rest) ↔
      ∃ w vs, ws = w :: vs ∧ w.kind = .ident ∧ name = w.text ++ (segments vs).1 ∧
        rest = (segments vs).2 := by
  constructor
  · intro h
    obtain ⟨first, vs, hf, h⟩ := bind_eq_ok.1 h
    obtain ⟨w, rfl, hw, rfl⟩ := ident_eq_ok.1 hf
    obtain ⟨name', hn⟩ := Prod.mk.inj (Except.ok.inj h)
    exact ⟨w, vs, rfl, hw, name'.symm, hn.symm⟩
  · rintro ⟨w, vs, rfl, hw, rfl, rfl⟩
    rw [qualifiedName, bind_of_ok (ident_cons hw)]
    rfl

/-- A qualified name is read from the kinds of its words, if no further segment follows. -/
theorem qualifiedName_local {what name : String} (h : qualifiedName what ws = .ok (name, rest)) :
    ∃ w taken, ws = w :: (taken ++ rest) ∧ w.kind = .ident ∧ ∀ ws' rest',
      SameKinds ws' (w :: taken) → isAt (.punct .dot) rest' = false →
        ∃ name', qualifiedName what (ws' ++ rest') = .ok (name', rest') := by
  obtain ⟨w, vs, rfl, hw, -, rfl⟩ := qualifiedName_eq_ok.1 h
  obtain ⟨taken, hvs, again⟩ := segments_local vs
  refine ⟨w, taken, by rw [← hvs], hw, fun ws' rest' hs hd ↦ ?_⟩
  obtain ⟨w', vs', rfl, hw', hs'⟩ := hs.cons_inv
  exact ⟨_, qualifiedName_eq_ok.2 ⟨w', vs' ++ rest', rfl, hw'.trans hw, rfl,
    (again _ _ hs' hd).symm⟩⟩

theorem annotationUse_local {a : Annotation} (h : annotationUse ws = .ok (a, rest)) :
    ∃ v w taken, ws = v :: w :: (taken ++ rest) ∧ v.kind = .punct .atSign ∧ w.kind = .ident ∧
      ∀ ws' rest', SameKinds ws' (v :: w :: taken) → isAt (.punct .dot) rest' = false →
        isAt (.punct .lparen) rest' = false →
          ∃ a', annotationUse (ws' ++ rest') = .ok (a', rest') := by
  obtain ⟨_, vs, hat, h₁⟩ := bind_eq_ok.1 h
  obtain ⟨v, rfl, hv, -⟩ := expect_eq_ok.1 hat
  obtain ⟨name, us, hn, h₂⟩ := bind_eq_ok.1 h₁
  obtain ⟨w, taken, rfl, hw, again⟩ := qualifiedName_local hn
  rw [lookAhead_bind] at h₂
  split at h₂
  · rename_i hp
    obtain ⟨args, xs, ha, h₃⟩ := bind_eq_ok.1 h₂
    cases h₃
    obtain ⟨x, inner, y, rfl, -, group⟩ := balanced_local (sourceOf_eq_ok ha)
    refine ⟨v, w, taken ++ x :: (inner ++ [y]), by simp, hv, hw, fun ws' rest' hs _ _ ↦ ?_⟩
    obtain ⟨v', us', rfl, hv', hs'⟩ := hs.cons_inv
    rw [← List.cons_append] at hs'
    obtain ⟨names', group', rfl, hn', hg'⟩ := hs'.append_inv
    have start : ∀ kind, isAt kind (group' ++ rest') = decide (x.kind = kind) := by
      intro kind
      have front : isAt kind (group' ++ rest') = isAt kind (x :: (inner ++ [y]) ++ rest) :=
        hg'.isAt_append (by simp) kind
      simpa [isAt] using front
    have hx : x.kind = .punct .lparen := by simpa [isAt] using hp
    obtain ⟨name', hname⟩ := again names' (group' ++ rest') hn' (by simp [start, hx])
    refine ⟨⟨name', some (sourceText group')⟩, ?_⟩
    rw [List.cons_append, annotationUse, bind_of_ok (expect_cons (hv'.trans hv)),
      List.append_assoc, bind_of_ok hname, lookAhead_bind, if_pos (by simp [start, hx]),
      bind_of_ok (sourceOf_append_iff.2 ⟨group _ _ hg', rfl⟩)]
    rfl
  · cases h₂
    refine ⟨v, w, taken, rfl, hv, hw, fun ws' rest' hs hd hp ↦ ?_⟩
    obtain ⟨v', vs', rfl, hv', hs'⟩ := hs.cons_inv
    obtain ⟨name', hn'⟩ := again _ _ hs' hd
    refine ⟨⟨name', none⟩, ?_⟩
    rw [List.cons_append, annotationUse, bind_of_ok (expect_cons (hv'.trans hv)), bind_of_ok hn',
      lookAhead_bind, if_neg (by simp [hp])]
    rfl

/-! ## Types -/

theorem isAt_eq_of_isAt {kind kind' : TokenKind} (h : isAt kind ws = true) :
    isAt kind' ws = decide (kind = kind') := by
  cases ws with
  | nil => simp [isAt] at h
  | cons w ws =>
    obtain rfl : w.kind = kind := by simpa [isAt] using h
    simp [isAt]

/-- In front of an identifier there are no annotations. -/
theorem typeAnnotations_of_ident (h : isAt .ident ws = true) :
    typeAnnotations () ws = .ok ((), ws) := by
  rw [typeAnnotations_eq, if_neg (by simp [isAt_eq_of_isAt h])]
  rfl

theorem isAt_append_of_isAt {kind : TokenKind} (h : isAt kind ws = true) :
    isAt kind (ws ++ rest) = true := by
  cases ws with
  | nil => simp [isAt] at h
  | cons w ws => simpa [isAt] using h

theorem SameKinds.isAt {vs : List Word} (h : SameKinds vs ws) (kind : TokenKind) :
    isAt kind vs = isAt kind ws := by
  cases ws with
  | nil =>
    obtain rfl : vs = [] := by simpa [SameKinds] using h
    rfl
  | cons w ws =>
    obtain ⟨v, vs, rfl, hv, -⟩ := h.cons_inv
    simp [Parser.isAt, hv]

/-- The annotations of a type are read from the kinds of their words. -/
theorem typeAnnotations_local {ws rest : List Word} (h : typeAnnotations () ws = .ok ((), rest)) :
    ∃ taken, ws = taken ++ rest ∧ (taken = [] ∨ isAt (.punct .atSign) taken = true) ∧
      ∀ ws' rest', SameKinds ws' taken → isAt .ident rest' = true →
        typeAnnotations () (ws' ++ rest') = .ok ((), rest') := by
  rw [typeAnnotations_eq] at h
  split at h
  · obtain ⟨a, vs, ha, h₁⟩ := bind_eq_ok.1 h
    have := (strides_annotationUse.advances ws a vs ha).2
    obtain ⟨v, w, ann, rfl, hv, hw, again⟩ := annotationUse_local ha
    obtain ⟨taken, rfl, ht, later⟩ := typeAnnotations_local h₁
    refine ⟨v :: w :: (ann ++ taken), by simp, .inr (by simp [isAt, hv]), fun ws' rest' hs hi ↦ ?_⟩
    rw [← List.cons_append, ← List.cons_append] at hs
    obtain ⟨ann', taken', rfl, ha', ht'⟩ := hs.append_inv
    -- The next annotation or the name of the type follows.
    have follow : ∀ kind, kind ≠ .punct .atSign → kind ≠ .ident →
        isAt kind (taken' ++ rest') = false := by
      intro kind hk hk'
      rcases ht with rfl | ht
      · obtain rfl : taken' = [] := by simpa [SameKinds] using ht'
        simp [isAt_eq_of_isAt hi, hk'.symm]
      · rw [← ht'.isAt] at ht
        rw [isAt_eq_of_isAt (isAt_append_of_isAt ht)]
        simpa using hk.symm
    obtain ⟨a', ha''⟩ := again ann' (taken' ++ rest') ha' (follow _ (by simp) (by simp))
      (follow _ (by simp) (by simp))
    have hat : isAt (.punct .atSign) (ann' ++ (taken' ++ rest')) = true :=
      isAt_append_of_isAt (by rw [ha'.isAt]; simp [isAt, hv])
    rw [List.append_assoc, typeAnnotations_eq, if_pos hat, bind_of_ok ha'']
    exact later _ _ ht' hi
  · cases h
    refine ⟨[], rfl, .inl rfl, fun ws' rest' hs hi ↦ ?_⟩
    obtain rfl : ws' = [] := by simpa [SameKinds] using hs
    exact typeAnnotations_of_ident hi
termination_by ws.length

/-- The last word of two parts is that of one of them. -/
theorem forall_getLast?_append {P : Word → Prop} {l k : List Word} (h : ∀ w ∈ l.getLast?, P w)
    (h' : ∀ w ∈ k.getLast?, P w) : ∀ w ∈ (l ++ k).getLast?, P w := by
  intro w hw
  cases e : k.getLast? with
  | none => exact h w (by simpa [List.getLast?_append, e] using hw)
  | some v => exact h' w (by simpa [List.getLast?_append, e] using hw)

theorem exists_of_isAt {kind : TokenKind} (h : isAt kind ws = true) :
    ∃ w vs, ws = w :: vs ∧ w.kind = kind := by
  cases ws with
  | nil => simp [isAt] at h
  | cons w vs => exact ⟨w, vs, rfl, by simpa [isAt] using h⟩

/-- A type ends with a name or a closing bracket. -/
def endsType : List TokenKind := [.ident, .punct .gt, .punct .rbracket]

/-- Behind the name of a type stand a dot, type arguments or brackets. -/
def continuesType : List TokenKind := [.punct .dot, .punct .lt, .punct .lbracket]

/-- The rest of a type is read in the same way, whatever follows. -/
theorem typeTail_local {ws rest : List Word} (h : typeTail () ws = .ok ((), rest)) :
    ∃ taken, ws = taken ++ rest ∧ (∀ w ∈ taken.head?, w.kind ∈ continuesType) ∧
      (∀ w ∈ taken.getLast?, w.kind ∈ endsType) ∧
      ∀ ws' rest', SameKinds ws' taken → typeTail () (ws' ++ rest') = typeTail () rest' := by
  rw [typeTail_eq] at h
  split at h
  · rename_i hc
    obtain ⟨hdot, hi⟩ := Bool.and_eq_true_iff.1 hc
    obtain ⟨d, _, rfl, hd⟩ := exists_of_isAt hdot
    obtain ⟨w, vs, rfl, hw⟩ := exists_of_isAt hi
    obtain ⟨taken, rfl, -, last, again⟩ := typeTail_local h
    refine ⟨d :: w :: taken, rfl, by simp [hd, continuesType],
      forall_getLast?_append (l := [d, w]) (by simp [hw, endsType]) last, fun ws' rest' hs ↦ ?_⟩
    obtain ⟨d', _, rfl, hd', hs'⟩ := hs.cons_inv
    obtain ⟨w', taken', rfl, hw', ht⟩ := hs'.cons_inv
    rw [List.cons_append, typeTail_eq, if_pos (by simp [isAt, hd', hd, hw', hw])]
    exact again _ _ ht
  split at h
  · rename_i hlt
    obtain ⟨_, vs, hb, h₁⟩ := bind_eq_ok.1 h
    have := ((strides_balanced _ _).advances _ _ _ hb).2
    obtain ⟨v, inner, w, rfl, hw, group⟩ := balanced_local hb
    obtain ⟨taken, rfl, -, last, again⟩ := typeTail_local h₁
    have hv : v.kind = .punct .lt := by simpa [isAt] using hlt
    refine ⟨(v :: (inner ++ [w])) ++ taken, by simp, by simp [hv, continuesType],
      forall_getLast?_append (by simp [List.getLast?_cons, hw, endsType]) last,
        fun ws' rest' hs ↦ ?_⟩
    obtain ⟨group', taken', rfl, hg, ht⟩ := hs.append_inv
    have start : isAt (.punct .lt) (group' ++ (taken' ++ rest')) = true :=
      isAt_append_of_isAt (by rw [hg.isAt]; simp [isAt, hv])
    rw [List.append_assoc, typeTail_eq, if_neg, if_pos start, bind_of_ok (group _ _ hg)]
    · exact again _ _ ht
    · simp [isAt_eq_of_isAt start]
  split at h
  · rename_i hb
    obtain ⟨hopen, hclose⟩ := Bool.and_eq_true_iff.1 hb
    obtain ⟨l, _, rfl, hl⟩ := exists_of_isAt hopen
    obtain ⟨r, vs, rfl, hr⟩ := exists_of_isAt hclose
    obtain ⟨taken, rfl, -, last, again⟩ := typeTail_local h
    refine ⟨l :: r :: taken, rfl, by simp [hl, continuesType],
      forall_getLast?_append (l := [l, r]) (by simp [hr, endsType]) last, fun ws' rest' hs ↦ ?_⟩
    obtain ⟨l', _, rfl, hl', hs'⟩ := hs.cons_inv
    obtain ⟨r', taken', rfl, hr', ht⟩ := hs'.cons_inv
    rw [List.cons_append, typeTail_eq, if_neg (by simp [isAt, hl', hl]),
      if_neg (by simp [isAt, hl', hl]),
      if_pos (by simp [isAtBrackets, isAt, hl', hl, hr', hr])]
    exact again _ _ ht
  · cases h
    refine ⟨[], rfl, by simp, by simp, fun ws' rest' hs ↦ ?_⟩
    obtain rfl : ws' = [] := by simpa [SameKinds] using hs
    rfl
termination_by ws.length

/-- A type consists of annotations, a name and the rest behind it. -/
theorem typeWords_local (h : typeWords ws = .ok ((), rest)) :
    ∃ ann name tail, ws = ann ++ name :: (tail ++ rest) ∧
      (ann = [] ∨ isAt (.punct .atSign) ann = true) ∧ name.kind = .ident ∧
      (∀ w ∈ tail.head?, w.kind ∈ continuesType) ∧
        (∀ w ∈ (name :: tail).getLast?, w.kind ∈ endsType) ∧
      ∀ ws' rest', SameKinds ws' (ann ++ name :: tail) →
        typeWords (ws' ++ rest') = typeTail () rest' := by
  obtain ⟨_, vs, ha, h₁⟩ := bind_eq_ok.1 h
  obtain ⟨_, us, hname, h₂⟩ := bind_eq_ok.1 h₁
  obtain ⟨ann, rfl, start, annAgain⟩ := typeAnnotations_local ha
  obtain ⟨name, rfl, hn, -⟩ := ident_eq_ok.1 hname
  obtain ⟨tail, rfl, first, last, tailAgain⟩ := typeTail_local h₂
  refine ⟨ann, name, tail, rfl, start, hn, first,
    forall_getLast?_append (l := [name]) (by simp [hn, endsType]) last, fun ws' rest' hs ↦ ?_⟩
  obtain ⟨ann', _, rfl, ha', hs'⟩ := hs.append_inv
  obtain ⟨name', tail', rfl, hn', ht'⟩ := hs'.cons_inv
  rw [List.append_assoc, List.cons_append, typeWords,
    bind_of_ok (annAgain _ _ ha' (by simp [isAt, hn', hn])), bind_of_ok (ident_cons (hn'.trans hn))]
  exact tailAgain _ _ ht'

/-! ## Modifiers -/

/-- The words start with a modifier of so many words. -/
inductive StartsWithModifier : Modifier → Nat → List Word → Prop where
  | keyword {m : Modifier} {w : Word} {vs : List Word} (h : w.kind = .keyword (.modifier m)) :
      StartsWithModifier m 1 (w :: vs)
  | sealed {w v : Word} {vs : List Word} (h : w.shape = (.ident, "sealed"))
      (hv : followsSealed v.kind = true) : StartsWithModifier .sealed 1 (w :: v :: vs)
  | nonSealed {w v u : Word} {vs : List Word} (h : w.shape = (.ident, "non"))
      (hv : v.shape = (.operator, "-")) (hu : u.text = "sealed") :
      StartsWithModifier .nonSealed 3 (w :: v :: u :: vs)

/-- A modifier is read where one starts, and `non-sealed` takes three words. -/
theorem modifierAt_eq_some_iff {m : Modifier} {n : Nat} :
    modifierAt ws = some (m, n) ↔ StartsWithModifier m n ws := by
  constructor
  · intro h
    cases ws with
    | nil => simp [modifierAt] at h
    | cons w ws =>
      rw [modifierAt] at h
      split at h
      · rename_i hw
        cases h
        exact .keyword hw
      · rename_i hw
        split at h
        · rename_i hs
          cases h
          cases ws with
          | nil => simp at hs
          | cons v ws => exact .sealed (Prod.ext hw hs.1) (by simpa using hs.2)
        split at h
        · rename_i hs
          cases h
          rcases ws with _ | ⟨v, _ | ⟨u, ws⟩⟩
          · simp at hs
          · simp at hs
          · obtain ⟨text, minus, sealed⟩ := hs
            refine .nonSealed (Prod.ext hw text) (Prod.ext_iff.2 ?_) (by simpa using sealed)
            simpa [isAtText, Word.shape] using minus
        · simp at h
      · simp at h
  · rintro (hw | ⟨hw, hv⟩ | ⟨hw, hv, hu⟩)
    · simp [modifierAt, hw]
    · obtain ⟨kind, text⟩ := Prod.ext_iff.1 hw
      simp_all [modifierAt, Word.shape]
    · obtain ⟨kind, text⟩ := Prod.ext_iff.1 hw
      obtain ⟨kind', text'⟩ := Prod.ext_iff.1 hv
      simp_all [modifierAt, Word.shape, isAtText]

/-- A name is not a modifier if nothing follows before which it could be one. -/
theorem modifierAt_eq_none {w v : Word} (h : w.kind = .ident) (hs : followsSealed v.kind = false)
    (hv : v.kind ≠ .operator) : modifierAt (w :: v :: ws) = none := by
  cases hm : modifierAt (w :: v :: ws) with
  | none => rfl
  | some r =>
    obtain ⟨m, n⟩ := r
    cases modifierAt_eq_some_iff.1 hm with
    | keyword hk => simp [h] at hk
    | sealed _ hv' => simp [hs] at hv'
    | nonSealed _ hv' _ => exact (hv (congrArg Prod.fst hv')).elim

/-- The same words, their places aside. -/
def SameShapes (ws vs : List Word) : Prop := ws.map Word.shape = vs.map Word.shape

namespace SameShapes

variable {w : Word} {vs us : List Word}

theorem cons_inv (h : SameShapes us (w :: ws)) :
    ∃ v vs, us = v :: vs ∧ v.shape = w.shape ∧ SameShapes vs ws := by
  obtain ⟨v, vs, rfl, hv, h⟩ := List.map_eq_cons_iff.1 h
  exact ⟨v, vs, rfl, hv, h⟩

/-- Words of the same shapes as two parts are in two such parts themselves. -/
theorem append_inv (h : SameShapes us (ws ++ vs)) :
    ∃ ws' vs', us = ws' ++ vs' ∧ SameShapes ws' ws ∧ SameShapes vs' vs := by
  rw [SameShapes, List.map_append] at h
  obtain ⟨ws', vs', rfl, hw, hv⟩ := List.map_eq_append_iff.1 h
  exact ⟨ws', vs', rfl, hw, hv⟩

/-- Words of the same shapes are of the same kinds. -/
theorem sameKinds (h : SameShapes us ws) : SameKinds us ws := by
  have := congrArg (List.map Prod.fst) h
  simpa [SameKinds, Word.shape, Function.comp_def] using this

end SameShapes

/-- Words with which an annotation does not go on. -/
def EndsAnnotationUse (ws : List Word) : Prop :=
  isAt (.punct .dot) ws = false ∧ isAt (.punct .lparen) ws = false

/-- An annotation ends where neither a further segment nor arguments follow. -/
theorem EndsAnnotationUse.of_isAt {kind : TokenKind} (h : isAt kind ws = true)
    (dot : kind ≠ .punct .dot) (lparen : kind ≠ .punct .lparen) : EndsAnnotationUse ws := by
  simp [EndsAnnotationUse, isAt_eq_of_isAt h, dot, lparen]

theorem EndsAnnotationUse.append_of_sameKinds {us : List Word} (h : EndsAnnotationUse ws)
    (hs : SameKinds us ws) (hr : EndsAnnotationUse rest) : EndsAnnotationUse (us ++ rest) := by
  cases ws with
  | nil =>
    obtain rfl := List.map_eq_nil_iff.1 hs
    exact hr
  | cons w ws =>
    obtain ⟨u, us, rfl, hu, -⟩ := hs.cons_inv
    simpa [EndsAnnotationUse, isAt, hu] using h

/-- A modifier in front of a name, or of what leads up to it, is one wherever that stands. -/
theorem StartsWithModifier.front {m : Modifier} {n : Nat} {ws taken rest : List Word}
    (h : StartsWithModifier m n ws) (hd : ws.drop n = taken ++ rest)
    (hr : isAt .ident rest = true) :
    ∃ front, ws = front ++ (taken ++ rest) ∧ EndsAnnotationUse (front ++ taken) ∧
      ∀ front' taken' rest', SameShapes front' front → SameShapes taken' taken →
        front'.length = n ∧ isAtAnnotation (front' ++ (taken' ++ rest')) = false ∧
          StartsWithModifier m n (front' ++ (taken' ++ rest')) := by
  cases h with
  | @keyword _ w vs hw =>
    obtain rfl : vs = taken ++ rest := by simpa using hd
    refine ⟨[w], rfl, by simp [EndsAnnotationUse, isAt, hw], fun front' taken' rest' hf _ ↦ ?_⟩
    obtain ⟨w', _, rfl, hw', hnil⟩ := hf.cons_inv
    obtain rfl := List.map_eq_nil_iff.1 hnil
    have kind' : w'.kind = .keyword (.modifier m) := (congrArg Prod.fst hw').trans hw
    exact ⟨rfl, by simp [ isAtAnnotation, isAt, kind'], .keyword kind'⟩
  | @sealed w v vs hw hv =>
    have kind : w.kind = .ident := congrArg Prod.fst hw
    refine ⟨[w], by simpa using hd, by simp [EndsAnnotationUse, isAt, kind],
      fun front' taken' rest' hf ht ↦ ?_⟩
    obtain ⟨w', _, rfl, hw', hnil⟩ := hf.cons_inv
    obtain rfl := List.map_eq_nil_iff.1 hnil
    have kind' : w'.kind = .ident := congrArg Prod.fst (hw'.trans hw)
    refine ⟨rfl, by simp [ isAtAnnotation, isAt, kind'], ?_⟩
    -- The word behind is not the name, so it is one of those that lead up to it.
    cases taken with
    | nil =>
      obtain rfl : v :: vs = rest := by simpa using hd
      have : v.kind = .ident := by simpa [isAt] using hr
      simp [this, followsSealed] at hv
    | cons u taken =>
      obtain ⟨rfl, -⟩ : v = u ∧ vs = taken ++ rest := by simpa using hd
      obtain ⟨v', taken', rfl, hv', -⟩ := ht.cons_inv
      have : v'.kind = v.kind := congrArg Prod.fst hv'
      exact .sealed (hw'.trans hw) (this ▸ hv)
  | @nonSealed w v u vs hw hv hu =>
    have kind : w.kind = .ident := congrArg Prod.fst hw
    obtain rfl : vs = taken ++ rest := by simpa using hd
    refine ⟨[w, v, u], rfl, by simp [EndsAnnotationUse, isAt, kind],
      fun front' taken' rest' hf _ ↦ ?_⟩
    obtain ⟨w', _, rfl, hw', hf'⟩ := hf.cons_inv
    obtain ⟨v', _, rfl, hv', hf''⟩ := hf'.cons_inv
    obtain ⟨u', _, rfl, hu', hnil⟩ := hf''.cons_inv
    obtain rfl := List.map_eq_nil_iff.1 hnil
    have kind' : w'.kind = .ident := congrArg Prod.fst (hw'.trans hw)
    exact ⟨rfl, by simp [ isAtAnnotation, isAt, kind'],
      .nonSealed (hw'.trans hw) (hv'.trans hv) ((congrArg Prod.snd hu').trans hu)⟩

/-- What is read as an annotation is no declaration of an annotation type. -/
theorem isAtAnnotation_of_annotationUse {a : Annotation}
    (h : annotationUse ws = .ok (a, rest)) : isAtAnnotation ws = true := by
  obtain ⟨v, w, taken, rfl, hv, hw, -⟩ := annotationUse_local h
  simp [ isAtAnnotation, isAt, hv, hw]

/-- Annotations and modifiers that lead up to a name are read in the same way wherever they
stand. -/
theorem modifiersAfter_local {ws rest : List Word} {s r : List Annotation × Modifiers}
    (h : modifiersAfter s ws = .ok (r, rest)) (hr : isAt .ident rest = true) :
    ∃ taken, ws = taken ++ rest ∧ EndsAnnotationUse taken ∧
      ∀ ws' rest', SameShapes ws' taken → isAt .ident rest' = true → modifierAt rest' = none →
        ∀ s', ∃ r', modifiersAfter s' (ws' ++ rest') = .ok (r', rest') := by
  obtain ⟨annotations, modifiers⟩ := s
  rw [modifiersAfter_eq] at h
  split at h
  · obtain ⟨a, vs, ha, h₁⟩ := bind_eq_ok.1 h
    have := (strides_annotationUse.advances ws a vs ha).2
    obtain ⟨v, w, ann, rfl, hv, hw, again⟩ := annotationUse_local ha
    obtain ⟨taken, rfl, ends, later⟩ := modifiersAfter_local h₁ hr
    refine ⟨v :: w :: (ann ++ taken), by simp, by simp [EndsAnnotationUse, isAt, hv],
      fun ws' rest' hs hi hm s' ↦ ?_⟩
    rw [← List.cons_append, ← List.cons_append] at hs
    obtain ⟨ann', taken', rfl, hann, htaken⟩ := hs.append_inv
    obtain ⟨dot, lparen⟩ := ends.append_of_sameKinds htaken.sameKinds
      (.of_isAt hi (by simp) (by simp))
    obtain ⟨a', ha'⟩ := again _ _ hann.sameKinds dot lparen
    obtain ⟨r', hr'⟩ := later taken' rest' htaken hi hm (s'.1 ++ [a'], s'.2)
    refine ⟨r', ?_⟩
    rw [List.append_assoc, modifiersAfter_eq, if_pos (isAtAnnotation_of_annotationUse ha'),
      bind_of_ok ha']
    exact hr'
  · rw [lookAhead_bind] at h
    cases hm : modifierAt ws with
    | some m =>
      obtain ⟨m, n⟩ := m
      rw [hm] at h
      dsimp only at h
      rw [skip_bind] at h
      have : ws.length - n < ws.length := by simpa using (behind_of_modifierAt hm).2
      obtain ⟨taken, hd, ends, later⟩ := modifiersAfter_local h hr
      obtain ⟨front, rfl, ends', again⟩ := (modifierAt_eq_some_iff.1 hm).front hd hr
      -- The number of words of a modifier is known from the words themselves, `non-sealed` having
      -- three.
      refine ⟨front ++ taken, by simp, ends', fun ws' rest' hs hi hm' s' ↦ ?_⟩
      obtain ⟨front', taken', rfl, hfront, htaken⟩ := hs.append_inv
      obtain ⟨hn, none, starts⟩ := again _ _ rest' hfront htaken
      obtain ⟨r', hr'⟩ := later taken' rest' htaken hi hm' (s'.1, s'.2.push m)
      refine ⟨r', ?_⟩
      rw [List.append_assoc, modifiersAfter_eq, if_neg (by simp [none]), lookAhead_bind,
        modifierAt_eq_some_iff.2 starts]
      dsimp only
      rw [skip_bind, List.drop_left' hn]
      exact hr'
    | none =>
      rw [hm] at h
      cases h
      refine ⟨[], rfl, by simp [EndsAnnotationUse, isAt], fun ws' rest' hs hi hm' s' ↦ ⟨s', ?_⟩⟩
      obtain rfl := List.map_eq_nil_iff.1 hs
      have : isAtAnnotation rest' = false := by simp [ isAtAnnotation, isAt_eq_of_isAt hi]
      rw [List.nil_append, modifiersAfter_eq, if_neg (by simp [this]), lookAhead_bind, hm']
      rfl
termination_by ws.length

/-! ## Text up to a mark -/

/-- The same kinds of words and the same operators. -/
def SameOutlines (ws vs : List Word) : Prop :=
  ws.map (fun w ↦ w.shape.outline) = vs.map fun w ↦ w.shape.outline

namespace SameOutlines

variable {w : Word} {vs us : List Word}

theorem cons_inv (h : SameOutlines us (w :: ws)) :
    ∃ v vs, us = v :: vs ∧ v.shape.outline = w.shape.outline ∧ SameOutlines vs ws := by
  obtain ⟨v, vs, rfl, hv, h⟩ := List.map_eq_cons_iff.1 h
  exact ⟨v, vs, rfl, hv, h⟩

/-- Words of the same outlines are of the same kinds. -/
theorem sameKinds (h : SameOutlines us ws) : SameKinds us ws := by
  have := congrArg (List.map Prod.fst) h
  simpa [SameKinds, Word.shape, Shape.outline, Function.comp_def] using this

end SameOutlines

/-- The search for the end of a text, word by word: it stops outside of all groups only. -/
theorem seek_cons {stop : List Word → Bool} {depth : Nat} {w : Word} :
    seek stop depth (w :: ws) =
      if depth = 0 ∧ stop (w :: ws) then .ok (w :: ws)
      else if opensGroup w.kind then seek stop (depth + 1) ws
      else if closesGroup w.kind then
        match depth with
        | 0 => .error (faultAt (.unexpected (some w.text)) (w :: ws))
        | depth + 1 => seek stop depth ws
      else seek stop depth ws := by
  cases depth <;> rfl

/-- Where `rest'` follows instead of `rest`, no mark comes earlier. -/
def StopsNoEarlier (stop : List Word → Bool) (rest rest' : List Word) : Prop :=
  ∀ us us', us ≠ [] → SameOutlines us' us → stop (us' ++ rest') = true → stop (us ++ rest) = true

/-- A mark that ends some words also ends words of the same outlines. -/
theorem seek_local {stop : List Word → Bool} {depth : Nat}
    (h : seek stop depth ws = .ok rest) :
    ∃ taken, ws = taken ++ rest ∧ stop rest = true ∧ ∀ ws' rest', SameOutlines ws' taken →
      StopsNoEarlier stop rest rest' → rest' ≠ [] → stop rest' = true →
        seek stop depth (ws' ++ rest') = .ok rest' := by
  have kind : ∀ {w w' : Word}, w'.shape.outline = w.shape.outline → w'.kind = w.kind :=
    congrArg Prod.fst
  fun_induction seek stop depth ws with
  | case1 => simp at h
  | case2 depth w ws hs =>
    cases h
    refine ⟨[], rfl, hs.2, fun ws' rest' hws _ ne hstop ↦ ?_⟩
    obtain rfl := List.map_eq_nil_iff.1 hws
    obtain ⟨r, rs, rfl⟩ := List.exists_cons_of_ne_nil ne
    rw [List.nil_append, seek_cons, if_pos ⟨hs.1, hstop⟩]
  | case3 depth w ws hs ho ih =>
    obtain ⟨taken, rfl, hr, again⟩ := ih h
    refine ⟨w :: taken, rfl, hr, fun ws' rest' hws early ne hstop ↦ ?_⟩
    obtain ⟨w', taken', rfl, hw, ht⟩ := hws.cons_inv
    have hs' : ¬ (depth = 0 ∧ stop (w' :: (taken' ++ rest')) = true) :=
      fun hs' ↦ hs ⟨hs'.1, early (w :: taken) _ (by simp) hws hs'.2⟩
    rw [List.cons_append, seek_cons, if_neg hs', kind hw, if_pos ho]
    exact again _ _ ht early ne hstop
  | case4 => simp at h
  | case5 w ws ho hc depth hs ih =>
    obtain ⟨taken, rfl, hr, again⟩ := ih h
    refine ⟨w :: taken, rfl, hr, fun ws' rest' hws early ne hstop ↦ ?_⟩
    obtain ⟨w', taken', rfl, hw, ht⟩ := hws.cons_inv
    rw [List.cons_append, seek_cons, if_neg (by simp), kind hw, if_neg ho, if_pos hc]
    exact again _ _ ht early ne hstop
  | case6 depth w ws hs ho hc ih =>
    obtain ⟨taken, rfl, hr, again⟩ := ih h
    refine ⟨w :: taken, rfl, hr, fun ws' rest' hws early ne hstop ↦ ?_⟩
    obtain ⟨w', taken', rfl, hw, ht⟩ := hws.cons_inv
    have hs' : ¬ (depth = 0 ∧ stop (w' :: (taken' ++ rest')) = true) :=
      fun hs' ↦ hs ⟨hs'.1, early (w :: taken) _ (by simp) hws hs'.2⟩
    rw [List.cons_append, seek_cons, if_neg hs', kind hw, if_neg ho, if_neg hc]
    exact again _ _ ht early ne hstop

/-- A text up to a mark is what the search passes over. -/
theorem textUntil_eq_ok {stop : List Word → Bool} {text : Option String} :
    textUntil stop ws = .ok (text, rest) ↔
      ∃ taken, ws = taken ++ rest ∧ seek stop 0 ws = .ok rest ∧ sourceText? taken = text := by
  have seeks : ∀ {a : Unit}, ((seek stop 0 ws).map ((), ·) : Except Fault (Unit × List Word)) =
      .ok (a, rest) ↔ seek stop 0 ws = .ok rest := by
    intro a
    cases seek stop 0 ws <;> simp [Except.map]
  constructor
  · intro h
    obtain ⟨⟨source, a⟩, _, hs, e⟩ := bind_eq_ok.1 h
    cases e
    obtain ⟨taken, rfl⟩ := seek_suffix (seeks.1 (withSource_eq_ok hs))
    obtain ⟨hp, rfl⟩ := withSource_append_iff.1 hs
    exact ⟨taken, rfl, seeks.1 hp, rfl⟩
  · rintro ⟨taken, rfl, hs, rfl⟩
    rw [textUntil, bind_of_ok (withSource_append_iff (a := ()).2 ⟨seeks.2 hs, rfl⟩)]
    rfl

/-- A mark of one word comes no earlier, whatever follows. -/
theorem stopsNoEarlier_of_head {stop : List Word → Bool}
    (h : ∀ w ws w' ws', w'.kind = w.kind → stop (w' :: ws') = stop (w :: ws)) :
    StopsNoEarlier stop rest ws := by
  intro us us' ne hs hstop
  obtain ⟨u, us, rfl⟩ := List.exists_cons_of_ne_nil ne
  obtain ⟨u', us', rfl, hu, -⟩ := hs.cons_inv
  rwa [List.cons_append, h u' (us' ++ ws) u (us ++ rest) (congrArg Prod.fst hu).symm]

theorem isAt_cons {kind : TokenKind} {w : Word} : isAt kind (w :: ws) = decide (w.kind = kind) := by
  simp [isAt]

theorem isAtText_cons {kind : TokenKind} {text : String} {w : Word} :
    isAtText kind text (w :: ws) = decide (w.shape = (kind, text)) := by
  simp [isAtText, Word.shape, Prod.ext_iff]

/-- Outlines keep the texts of operators, so they tell `=` and `*` apart. -/
theorem shape_eq_operator_iff {w v : Word} {text : String} (h : w.shape.outline = v.shape.outline) :
    w.shape = (.operator, text) ↔ v.shape = (.operator, text) := by
  have kind : w.kind = v.kind := congrArg Prod.fst h
  have same := congrArg Prod.snd h
  by_cases hk : v.kind = .operator <;> simp_all [Shape.outline, Word.shape]

/-- An initializer ends at a comma or a semicolon. -/
theorem isAt_of_endsInitializer (h : endsInitializer ws = true) :
    isAt (.punct .comma) ws = true ∨ isAt (.punct .semi) ws = true := by
  simp only [endsInitializer, Bool.or_eq_true, Bool.and_eq_true] at h
  exact h.symm.imp_left And.left

/-- An initial value that ends before a comma could also be the last one. -/
theorem stopsNoEarlier_endsInitializer (h : endsInitializer rest = true)
    (hs : isAt (.punct .semi) ws = true) : StopsNoEarlier endsInitializer rest ws := by
  have hr := (isAt_of_endsInitializer h).symm
  intro us us' ne hus hstop
  obtain ⟨u, us, rfl⟩ := List.exists_cons_of_ne_nil ne
  obtain ⟨u', us', rfl, hu, hus'⟩ := hus.cons_inv
  have ku : u'.kind = u.kind := congrArg Prod.fst hu
  match us, hus' with
  | [], hus' =>
    obtain rfl := List.map_eq_nil_iff.1 hus'
    simp_all [endsInitializer, isAtDeclarator, isAt_cons, isAt_eq_of_isAt hs]
  | [v], hus' =>
    obtain ⟨v', _, rfl, hv, hnil⟩ := hus'.cons_inv
    obtain rfl := List.map_eq_nil_iff.1 hnil
    have kv : v'.kind = v.kind := congrArg Prod.fst hv
    have after : (isAt (.punct .comma) rest || isAt (.punct .semi) rest) = true := by
      simpa [or_comm] using hr
    simp only [endsInitializer, isAtDeclarator, List.cons_append, List.nil_append, List.tail_cons,
      isAt_cons, ku, kv, after, Bool.true_or, Bool.and_true] at hstop ⊢
    grind
  | v :: x :: us, hus' =>
    obtain ⟨v', _, rfl, hv, hus''⟩ := hus'.cons_inv
    obtain ⟨x', us', rfl, hx, -⟩ := hus''.cons_inv
    have kv : v'.kind = v.kind := congrArg Prod.fst hv
    have kx : x'.kind = x.kind := congrArg Prod.fst hx
    simpa [endsInitializer, isAtDeclarator, isAt_cons, isAtText_cons, shape_eq_operator_iff hx, ku,
      kv, kx] using hstop

end PlatformOverlay.Java.Parser
