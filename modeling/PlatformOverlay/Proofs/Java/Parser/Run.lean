import PlatformOverlay.Java.Parser.Declaration

/-!
# Running parsers

What a parser reads when it takes one step after another, which words it leaves and where it fails.
A parser leaves a rest of the words it was given (`Shortens`), and a shorter one where it takes a
word (`Advances`).  These properties are put together from the steps of a parser, in three layers:

* `Within` and `Takes` speak of a parser on given words, with a bound for its faults
  (`FaultBound`), so that a step knows what the steps before it have left;
* `Walks` and `Strides` say the same of all words and all bounds;
* `KeepsWithin` speaks of a rule that refers to itself, and `KeepsWithin.walks` is the one induction
  for all loops.

Nothing is said here about the values that parsers return.
-/

namespace PlatformOverlay.Java.Parser

variable {α β σ : Type} {p : Parser α} {f g : α → Parser β} {ws rest : List Word} {a : α} {b : β}

/-! ## One step after another -/

theorem bind_apply : (p >>= f) ws = (p ws).bind fun r ↦ f r.1 r.2 := by
  rfl

/-- If a sequence succeeds, then so do both readers: proofs about sequences take them apart with
this. -/
theorem bind_eq_ok :
    (p >>= f) ws = .ok (b, rest) ↔ ∃ a vs, p ws = .ok (a, vs) ∧ f a vs = .ok (b, rest) := by
  rw [bind_apply]
  cases h : p ws with
  | error e => simp [Except.bind]
  | ok r =>
    obtain ⟨a, vs⟩ := r
    constructor
    · exact fun e ↦ ⟨a, vs, rfl, e⟩
    · rintro ⟨_, _, ⟨⟩, e⟩
      exact e

theorem bind_of_ok {vs : List Word} (h : p ws = .ok (a, vs)) : (p >>= f) ws = f a vs := by
  rw [bind_apply, h]
  rfl

@[simp] theorem pure_apply : (pure a : Parser α) ws = .ok (a, ws) := rfl

@[simp] theorem lookAhead_bind {h : List Word → α} : (lookAhead h >>= f) ws = f (h ws) ws := rfl

@[simp] theorem get_bind {f : List Word → Parser β} :
    ((get : Parser (List Word)) >>= f) ws = f ws ws := rfl

@[simp] theorem skip_bind {n : Nat} {f : Unit → Parser β} :
    (skip n >>= f) ws = f () (ws.drop n) := rfl

theorem eat_of_isAt {kind : TokenKind} (h : isAt kind ws = true) :
    eat kind ws = .ok (true, ws.tail) := by
  rw [eat, if_pos h]

theorem eat_of_not_isAt {kind : TokenKind} (h : isAt kind ws = false) :
    eat kind ws = .ok (false, ws) := by
  rw [eat, if_neg (by simp [h])]

theorem failExpecting_ne_ok {what : String} : failExpecting (α := α) what ws ≠ .ok (a, rest) := by
  simp [failExpecting]

theorem fail_ne_ok {cause : Cause} : fail (α := α) cause ws ≠ .ok (a, rest) := by
  simp [fail]

theorem expect_eq_ok {kind : TokenKind} {what text : String} :
    expect kind what ws = .ok (text, rest) ↔
      ∃ w, ws = w :: rest ∧ w.kind = kind ∧ w.text = text := by
  cases ws with
  | nil => simp [expect, failExpecting]
  | cons w ws =>
    by_cases h : w.kind = kind
    · simp only [expect, if_pos h, Except.ok.injEq, Prod.mk.injEq, List.cons.injEq]
      constructor
      · rintro ⟨rfl, rfl⟩
        exact ⟨w, ⟨rfl, rfl⟩, h, rfl⟩
      · rintro ⟨_, ⟨rfl, rfl⟩, -, rfl⟩
        exact ⟨rfl, rfl⟩
    · simp only [expect, if_neg h, failExpecting, reduceCtorEq, false_iff]
      rintro ⟨_, e, hk, -⟩
      exact h ((List.cons.inj e).1 ▸ hk)

theorem expect_cons {kind : TokenKind} {what : String} {w : Word} (h : w.kind = kind) :
    expect kind what (w :: ws) = .ok (w.text, ws) :=
  expect_eq_ok.2 ⟨w, rfl, h, rfl⟩

theorem ident_eq_ok {what text : String} :
    ident what ws = .ok (text, rest) ↔ ∃ w, ws = w :: rest ∧ w.kind = .ident ∧ w.text = text :=
  expect_eq_ok

theorem ident_cons {what : String} {w : Word} (h : w.kind = .ident) :
    ident what (w :: ws) = .ok (w.text, ws) :=
  expect_cons h

/-- The source text of some words, if there are any. -/
def sourceText? : List Word → Option String
  | [] => none
  | w :: ws => some (sourceText (w :: ws))

/-- Taking the source along does not change what is read. -/
theorem withSource_eq_ok {source : Option String}
    (h : withSource p ws = .ok ((source, a), rest)) : p ws = .ok (a, rest) := by
  rw [withSource] at h
  split at h
  · simp at h
  · rename_i hp
    cases h
    exact hp

/-- The source is that of the words that were taken. -/
theorem withSource_append_iff {taken : List Word} {source : Option String} :
    withSource p (taken ++ rest) = .ok ((source, a), rest) ↔
      p (taken ++ rest) = .ok (a, rest) ∧ sourceText? taken = source := by
  have value : ∀ a, p (taken ++ rest) = .ok (a, rest) →
      withSource p (taken ++ rest) = .ok ((sourceText? taken, a), rest) := by
    intro a hp
    have ht : (taken ++ rest).take ((taken ++ rest).length - rest.length) = taken := by simp
    rw [withSource, hp]
    dsimp only
    rw [ht]
    cases taken <;> rfl
  constructor
  · intro h
    have hp := withSource_eq_ok h
    rw [value a hp] at h
    exact ⟨hp, by simpa using h⟩
  · rintro ⟨hp, rfl⟩
    exact value a hp

theorem sourceOf_eq_ok {p : Parser Unit} {source : String}
    (h : sourceOf p ws = .ok (source, rest)) :
    p ws = .ok ((), rest) := by
  obtain ⟨_, _, hs, e⟩ := bind_eq_ok.1 h
  cases e
  exact withSource_eq_ok hs

theorem sourceOf_append_iff {p : Parser Unit} {taken : List Word} {source : String} :
    sourceOf p (taken ++ rest) = .ok (source, rest) ↔
      p (taken ++ rest) = .ok ((), rest) ∧ sourceText taken = source := by
  have value : (sourceText? taken).getD "" = sourceText taken := by cases taken <;> rfl
  constructor
  · intro h
    obtain ⟨⟨s, _⟩, _, hs, e⟩ := bind_eq_ok.1 h
    cases e
    obtain ⟨hp, rfl⟩ := withSource_append_iff.1 hs
    exact ⟨hp, value.symm⟩
  · rintro ⟨hp, rfl⟩
    rw [sourceOf, bind_of_ok (withSource_append_iff.2 ⟨hp, rfl⟩), ← value]
    rfl

/-! ## Words taken -/

/-- The words are a rest of the others, and a shorter one. -/
def Behind (vs ws : List Word) : Prop := vs <:+ ws ∧ vs.length < ws.length

/-- What lies behind a suffix lies behind the whole. -/
theorem Behind.trans_suffix {us vs : List Word} (h : Behind us vs) (h' : vs <:+ ws) :
    Behind us ws :=
  ⟨h.1.trans h', Nat.lt_of_lt_of_le h.2 h'.length_le⟩

theorem Behind.of_suffix {us vs : List Word} (h : Behind vs ws) (h' : us <:+ vs) :
    Behind us ws :=
  ⟨h'.trans h.1, Nat.lt_of_le_of_lt h'.length_le h.2⟩

theorem ne_nil_of_isAt {kind : TokenKind} (h : isAt kind ws = true) : ws ≠ [] := by
  rintro rfl
  simp [isAt] at h

theorem length_drop_lt {n : Nat} (h : ws ≠ []) (hn : 0 < n) :
    (ws.drop n).length < ws.length := by
  have := List.length_pos_iff.2 h
  rw [List.length_drop]
  omega

/-- Taking words off a list that has some leaves a shorter rest. -/
theorem behind_drop {n : Nat} (ne : ws ≠ []) (hn : 0 < n) : Behind (ws.drop n) ws :=
  ⟨List.drop_suffix n ws, length_drop_lt ne hn⟩

/-- The parser takes words from the front only. -/
def Shortens (p : Parser α) : Prop := ∀ ws a rest, p ws = .ok (a, rest) → rest <:+ ws

/-- The parser takes at least one word from the front. -/
def Advances (p : Parser α) : Prop :=
  ∀ ws a rest, p ws = .ok (a, rest) → rest <:+ ws ∧ rest.length < ws.length

/-- A reader that takes a word leaves a suffix. -/
theorem Advances.shortens (h : Advances p) : Shortens p := fun ws a rest e ↦ (h ws a rest e).1

/-! ## What is left and which faults there are

Two things are said of every rule of the grammar: which words it leaves, and where it fails.  Both
follow one walk through its steps.  So the walk is made once, for any bound on the faults that a
rest of the words may be put under (`FaultBound`); with the bound that allows everything it says
what is left. -/

/-- Which faults a parser may end with on which words.  A fault on a rest of the words is one on
the words, and a fault at the first word is allowed unless the parser is stuck. -/
structure FaultBound where
  Allows : List Word → Fault → Prop
  of_suffix {vs ws : List Word} {fault : Fault} : vs <:+ ws → Allows vs fault → Allows ws fault
  of_cause {cause : Cause} (ws : List Word) : cause ≠ .stuck → Allows ws (faultAt cause ws)

namespace FaultBound

/-- Any fault. -/
def all : FaultBound where
  Allows _ _ := True
  of_suffix _ _ := trivial
  of_cause _ _ := trivial

/-- A fault at one of the words or at their end, and not that of a parser that is stuck. -/
def located : FaultBound where
  Allows ws fault :=
    fault.cause ≠ .stuck ∧ ∃ vs, vs <:+ ws ∧ fault.position = vs.head?.map Word.start
  of_suffix := by
    rintro vs ws fault suffix ⟨other, us, hu, position⟩
    exact ⟨other, us, hu.trans suffix, position⟩
  of_cause ws other := ⟨other, ws, List.suffix_rfl, rfl⟩

end FaultBound

variable {F : FaultBound} {fault : Fault}

/-- On these words the parser leaves a rest of them, or fails within the bound. -/
structure Within (F : FaultBound) (p : Parser α) (ws : List Word) : Prop where
  left : ∀ a rest, p ws = .ok (a, rest) → rest <:+ ws
  fault : ∀ fault, p ws = .error fault → F.Allows ws fault

/-- On these words the parser takes at least one of them, or fails within the bound. -/
structure Takes (F : FaultBound) (p : Parser α) (ws : List Word) : Prop where
  left : ∀ a rest, p ws = .ok (a, rest) → Behind rest ws
  fault : ∀ fault, p ws = .error fault → F.Allows ws fault

/-- A reader that takes a word stays within the bound. -/
theorem Takes.within (h : Takes F p ws) : Within F p ws :=
  ⟨fun a rest e ↦ (h.left a rest e).1, h.fault⟩

namespace Within

theorem of_ok (h : p ws = .ok (a, rest)) (suffix : rest <:+ ws) : Within F p ws := by
  refine ⟨fun b us e ↦ ?_, fun fault e ↦ ?_⟩
  · cases h.symm.trans e
    exact suffix
  · cases h.symm.trans e

theorem of_fault (h : p ws = .error fault) (allowed : F.Allows ws fault) : Within F p ws := by
  refine ⟨fun b us e ↦ ?_, fun other e ↦ ?_⟩
  · cases h.symm.trans e
  · cases h.symm.trans e
    exact allowed

/-- Without a bound on its faults, a reader stays within the words if it leaves a suffix. -/
theorem of_shortens (h : Shortens p) (ws : List Word) : Within .all p ws :=
  ⟨fun a rest e ↦ h ws a rest e, fun _ _ ↦ trivial⟩

/-- Only what a reader does on the given words matters. -/
theorem congr {q : Parser α} (h : Within F q ws) (e : p ws = q ws) : Within F p ws :=
  ⟨fun a rest hp ↦ h.left a rest (e ▸ hp), fun f hp ↦ h.fault f (e ▸ hp)⟩

/-- The second reader is asked about what the first one has left. -/
theorem bind_of_left (hp : Within F p ws) (hf : ∀ a vs, p ws = .ok (a, vs) → Within F (f a) vs) :
    Within F (p >>= f) ws := by
  refine ⟨fun b rest h ↦ ?_, fun fault h ↦ ?_⟩
  · obtain ⟨a, vs, ha, hb⟩ := bind_eq_ok.1 h
    exact ((hf a vs ha).left b rest hb).trans (hp.left a vs ha)
  · rw [bind_apply] at h
    cases ha : p ws with
    | error other =>
      rw [ha] at h
      cases h
      exact hp.fault fault ha
    | ok r =>
      rw [ha] at h
      exact F.of_suffix (hp.left r.1 r.2 ha) ((hf r.1 r.2 ha).fault fault h)

/-- A step that may take words. -/
theorem bind (hp : Within F p ws) (hf : ∀ a vs, vs <:+ ws → Within F (f a) vs) :
    Within F (p >>= f) ws :=
  hp.bind_of_left fun a vs h ↦ hf a vs (hp.left a vs h)

/-- A step that takes a word, so that what comes next has fewer. -/
theorem bind_takes (hp : Takes F p ws) (hf : ∀ a vs, Behind vs ws → Within F (f a) vs) :
    Within F (p >>= f) ws :=
  hp.within.bind_of_left fun a vs h ↦ hf a vs (hp.left a vs h)

/-- A choice, with its condition known in each branch. -/
theorem ite {c : Prop} [Decidable c] {p q : Parser α} (hp : c → Within F p ws)
    (hq : ¬c → Within F q ws) : Within F (if c then p else q) ws := by
  split
  · exact hp ‹_›
  · exact hq ‹_›

theorem pure : Within F (Pure.pure a : Parser α) ws := .of_ok rfl List.suffix_rfl

/-- A failure at the first word is within every bound, if it is not that of a loop that is
stuck. -/
theorem fail {cause : Cause} (other : cause ≠ .stuck) : Within F (fail cause : Parser α) ws :=
  .of_fault rfl (F.of_cause ws other)

theorem failExpecting {what : String} : Within F (failExpecting what : Parser α) ws :=
  .of_fault rfl (F.of_cause ws (by simp))

theorem lookAhead_bind {h : List Word → α} (hf : Within F (f (h ws)) ws) :
    Within F (lookAhead h >>= f) ws :=
  hf.congr rfl

theorem get_bind {f : List Word → Parser β} (hf : Within F (f ws) ws) :
    Within F (MonadState.get >>= f) ws :=
  hf.congr rfl

theorem skip {n : Nat} : Within F (skip n) ws := .of_ok rfl (List.drop_suffix n ws)

/-- Going on behind words that are there. -/
theorem skip_bind {n : Nat} {f : Unit → Parser β} (ne : ws ≠ []) (hn : 0 < n)
    (hf : ∀ vs, Behind vs ws → Within F (f ()) vs) : Within F (Parser.skip n >>= f) ws :=
  skip.bind_of_left fun _ vs h ↦ by
    cases h
    exact hf _ (behind_drop ne hn)

theorem eat {kind : TokenKind} : Within F (eat kind) ws := by
  cases hk : isAt kind ws with
  | true => exact .of_ok (eat_of_isAt hk) (List.tail_suffix ws)
  | false => exact .of_ok (eat_of_not_isAt hk) List.suffix_rfl

/-- A word that may stand here: behind it there are fewer words, and without it the same. -/
theorem eat_bind {kind : TokenKind} {f : Bool → Parser β}
    (taken : ∀ vs, Behind vs ws → Within F (f true) vs) (other : Within F (f false) ws) :
    Within F (Parser.eat kind >>= f) ws := by
  refine eat.bind_of_left fun found vs h ↦ ?_
  cases hk : isAt kind ws with
  | true =>
    cases (eat_of_isAt hk).symm.trans h
    exact taken _ (by simpa using behind_drop (ne_nil_of_isAt hk) Nat.one_pos)
  | false =>
    cases (eat_of_not_isAt hk).symm.trans h
    exact other

theorem withSource (hp : Within F p ws) : Within F (withSource p) ws := by
  refine ⟨fun b rest h ↦ ?_, fun fault h ↦ ?_⟩
  · exact hp.left b.2 rest (withSource_eq_ok h)
  · rw [Parser.withSource] at h
    split at h
    · rename_i hr
      cases h
      exact hp.fault fault hr
    · cases h

end Within

namespace Takes

theorem of_fault (h : p ws = .error fault) (allowed : F.Allows ws fault) : Takes F p ws := by
  refine ⟨fun b us e ↦ ?_, fun other e ↦ ?_⟩
  · cases h.symm.trans e
  · cases h.symm.trans e
    exact allowed

theorem of_ok (h : p ws = .ok (a, rest)) (behind : Behind rest ws) : Takes F p ws := by
  refine ⟨fun b us e ↦ ?_, fun fault e ↦ ?_⟩
  · cases h.symm.trans e
    exact behind
  · cases h.symm.trans e

theorem congr {q : Parser α} (h : Takes F q ws) (e : p ws = q ws) : Takes F p ws :=
  ⟨fun a rest hp ↦ h.left a rest (e ▸ hp), fun f hp ↦ h.fault f (e ▸ hp)⟩

/-- The first step takes the word. -/
theorem bind (hp : Takes F p ws) (hf : ∀ a vs, Behind vs ws → Within F (f a) vs) :
    Takes F (p >>= f) ws := by
  refine ⟨fun b rest h ↦ ?_, (Within.bind_takes hp hf).fault⟩
  obtain ⟨a, vs, ha, hb⟩ := bind_eq_ok.1 h
  have behind := hp.left a vs ha
  exact behind.of_suffix ((hf a vs behind).left b rest hb)

/-- A later step takes the word. -/
theorem bind_right (hp : Within F p ws) (hf : ∀ a vs, vs <:+ ws → Takes F (f a) vs) :
    Takes F (p >>= f) ws := by
  refine ⟨fun b rest h ↦ ?_, (hp.bind fun a vs hv ↦ (hf a vs hv).within).fault⟩
  obtain ⟨a, vs, ha, hb⟩ := bind_eq_ok.1 h
  have suffix := hp.left a vs ha
  exact ((hf a vs suffix).left b rest hb).trans_suffix suffix

theorem ite {c : Prop} [Decidable c] {p q : Parser α} (hp : c → Takes F p ws)
    (hq : ¬c → Takes F q ws) : Takes F (if c then p else q) ws := by
  split
  · exact hp ‹_›
  · exact hq ‹_›

theorem failExpecting {what : String} : Takes F (failExpecting what : Parser α) ws :=
  .of_fault rfl (F.of_cause ws (by simp))

theorem lookAhead_bind {h : List Word → α} (hf : Takes F (f (h ws)) ws) :
    Takes F (lookAhead h >>= f) ws :=
  hf.congr rfl

theorem get_bind {f : List Word → Parser β} (hf : Takes F (f ws) ws) :
    Takes F (MonadState.get >>= f) ws :=
  hf.congr rfl

theorem expect {kind : TokenKind} {what : String} : Takes F (expect kind what) ws := by
  cases ws with
  | nil =>
    have failed : Parser.expect kind what [] = .error (faultAt (.expected what none) []) := rfl
    exact .of_fault failed (F.of_cause [] (by simp))
  | cons w ws =>
    by_cases h : w.kind = kind
    · exact .of_ok (expect_cons h) ⟨List.suffix_cons w ws, Nat.lt_succ_self _⟩
    · have failed : Parser.expect kind what (w :: ws) =
          .error (faultAt (.expected what (some w.text)) (w :: ws)) := by
        rw [Parser.expect, if_neg h]
        rfl
      exact .of_fault failed (F.of_cause _ (by simp))

theorem withSource (hp : Takes F p ws) : Takes F (withSource p) ws :=
  ⟨fun b rest h ↦ hp.left b.2 rest (withSource_eq_ok h), hp.within.withSource.fault⟩

end Takes

/-- The parser stays within the words it is given and within every bound for its faults. -/
def Walks (p : Parser α) : Prop := ∀ F ws, Within F p ws

/-- The parser takes a word and stays within every bound for its faults. -/
def Strides (p : Parser α) : Prop := ∀ F ws, Takes F p ws

theorem Walks.shortens (h : Walks p) : Shortens p := fun ws ↦ (h .all ws).left

/-- A reader that strides takes a word, and so it walks. -/
theorem Strides.walks (h : Strides p) : Walks p := fun F ws ↦ (h F ws).within

/-- A reader that takes a word leaves fewer words than it was given. -/
theorem Strides.advances (h : Strides p) : Advances p := fun ws ↦ (h .all ws).left

theorem Strides.shortens (h : Strides p) : Shortens p := h.walks.shortens

theorem Shortens.skip {n : Nat} : Shortens (skip n) := Walks.shortens fun _ _ ↦ .skip

theorem Shortens.eat {kind : TokenKind} : Shortens (eat kind) := Walks.shortens fun _ _ ↦ .eat

theorem Shortens.pure : Shortens (Pure.pure a : Parser α) := Walks.shortens fun _ _ ↦ .pure

theorem Advances.expect {kind : TokenKind} {what : String} : Advances (expect kind what) :=
  Strides.advances fun _ _ ↦ .expect

theorem Shortens.expect {kind : TokenKind} {what : String} : Shortens (expect kind what) :=
  Advances.expect.shortens

/-- The rule stays within the words and the bound if what it calls does, and it calls that behind
at least one word only. -/
def KeepsWithin (rule : (σ → Parser α) → σ → Parser α) : Prop :=
  ∀ (F : FaultBound) (f : σ → Parser α) (s : σ) (ws : List Word),
    (∀ t vs, Behind vs ws → Within F (f t) vs) → Within F (rule f s) ws

namespace KeepsWithin

variable {rule : (σ → Parser α) → σ → Parser α}

/-- The induction on the number of words behind all loops: one turn more than there are words never
gets to the end of the turns. -/
theorem walks (h : KeepsWithin rule) (s : σ) : Walks (fixpoint rule s) := by
  intro F ws
  have all : ∀ n s ws, ws.length < n → Within F (unfolded rule n s) ws := by
    intro n
    induction n with
    | zero => exact fun _ _ none ↦ (Nat.not_lt_zero _ none).elim
    | succ n ih =>
      intro s ws enough
      refine h F _ s ws fun t vs behind ↦ ih t vs ?_
      exact Nat.lt_of_lt_of_le behind.2 (Nat.le_of_lt_succ enough)
  exact (all _ s ws (Nat.lt_succ_self _)).congr rfl

/-- However often the rule is unfolded, it takes words from the front only. -/
theorem shortens_unfolded (h : KeepsWithin rule) (n : Nat) (s : σ) :
    Shortens (unfolded rule n s) := by
  induction n generalizing s with
  | zero => exact fun _ _ _ e ↦ (fail_ne_ok e).elim
  | succ n ih => exact fun ws ↦ (h .all _ s ws fun t vs _ ↦ .of_shortens (ih t) vs).left

end KeepsWithin

/-! ## Rules that refer to themselves -/

/-- The first reader may be replaced by one that does the same. -/
theorem bind_congr_left {q : Parser α} (h : p ws = q ws) : (p >>= f) ws = (q >>= f) ws := by
  rw [bind_apply, bind_apply, h]

/-- Behind a reader that takes a word, only what is done on fewer words matters. -/
theorem bind_congr_of_advances (hp : Advances p)
    (h : ∀ a vs, Behind vs ws → f a vs = g a vs) : (p >>= f) ws = (p >>= g) ws := by
  rw [bind_apply, bind_apply]
  cases hr : p ws with
  | error e => rfl
  | ok r => exact h r.1 r.2 (hp ws r.1 r.2 hr)

theorem bind_congr_of_shortens (hp : Shortens p)
    (h : ∀ a vs, vs <:+ ws → f a vs = g a vs) : (p >>= f) ws = (p >>= g) ws := by
  rw [bind_apply, bind_apply]
  cases hr : p ws with
  | error e => rfl
  | ok r => exact h r.1 r.2 (hp ws r.1 r.2 hr)

/-- The rule calls itself only where at least one word has been taken. -/
def CallsBehind (rule : (σ → Parser α) → σ → Parser α) : Prop :=
  ∀ (f g : σ → Parser α) (s : σ) (ws : List Word),
    (∀ t vs, Behind vs ws → f t vs = g t vs) → rule f s ws = rule g s ws

/-- A rule that calls itself behind the words it is given calls itself on fewer words, so that
`fixpoint_eq` applies. -/
theorem CallsBehind.callsOnFewer {rule : (σ → Parser α) → σ → Parser α} (h : CallsBehind rule) :
    CallsOnFewer rule :=
  fun f g s ws e ↦ h f g s ws fun t vs hv ↦ e t vs hv.2

end PlatformOverlay.Java.Parser
