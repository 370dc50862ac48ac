import PlatformOverlay.Proofs.Java.Indexed.Reader
import PlatformOverlay.Proofs.Java.Parser.Progress

/-!
# Readers with a cursor and parsers of words

A reader agrees with a parser when no check fails in it and it does with the cursor what the parser
does with the words that are left (`Agrees`).  There is one lemma for each way to put readers
together, and for a loop it is enough that each turn agrees if the turns behind it do
(`agrees_fixpoint`).

The relation between the two sides is `Presents`: the words are what the text holds at its tokens,
positions, source text and comments included. From it each step of a reader is compared with a step
of a parser.

| reader | parser | lemma |
| --- | --- | --- |
| looks at tokens further on | looks at words | `Looks` |
| moves the cursor | drops words | `AgreesAt.move_bind` |
| slices the text between two tokens | source text of words | `AgreesAt.slice_bind` |
| asks for the last token taken | has taken a word | `AgreesAt.lastTaken_bind` |
| searches the comments | has them at the word | `AgreesAt.docBefore_bind` |
| takes another turn | calls the rule | `agrees_fixpoint` |

`AgreesAt` is the relation for one place of the cursor. The second step of a sequence is compared
from where the first one has left both, so for a check to hold it may be used that words have been
taken (`AgreesAt.bind_advances`).
-/

namespace PlatformOverlay.Java.Indexed

open Text (Position piece?)

variable {α β σ : Type} {input : Input} {words : List Word} {cursor : Nat}

/-- The words are what the text holds at its tokens. -/
structure Presents (input : Input) (words : List Word) : Prop where
  length : input.tokens.length = words.length
  token : ∀ (i : Nat) (t : Span), input.tokens[i]? = some t → ∃ w, words[i]? = some w ∧
    t.kind = w.kind ∧ piece? input.text t.start t.stop = some w.text ∧
    input.position t.start = w.start
  source : ∀ first next cursor : Nat, first < next → next ≤ words.length →
    slice first (next - 1) input cursor =
      .done (sourceText ((words.drop first).take (next - first))) cursor
  doc : ∀ i : Nat, docOf input i = .ok (words[i]?.bind Word.doc)

variable {q : Reader α} {f : α → Reader β} {a : α} {next : Nat}

/-- One reader after the other: a check that is broken ends the run, as a fault does. -/
theorem bind_apply : (q >>= f) input cursor =
    match q input cursor with
    | .done a next => f a input next
    | .failed cause next => .failed cause next
    | .broken check => .broken check :=
  rfl

theorem bind_of_done (h : q input cursor = .done a next) :
    (q >>= f) input cursor = f a input next := by
  rw [bind_apply, h]

theorem bind_of_failed {cause : Cause} (h : q input cursor = .failed cause next) :
    (q >>= f) input cursor = .failed cause next := by
  rw [bind_apply, h]

instance : LawfulMonad Reader := .mk' Reader
  (fun q ↦ by
    funext input cursor
    change (q >>= pure) input cursor = _
    rw [bind_apply]
    cases q input cursor <;> rfl)
  (fun _ _ ↦ rfl)
  (fun q f g ↦ by
    funext input cursor
    rw [bind_apply, bind_apply, bind_apply]
    cases q input cursor <;> rfl)

/-! ## Looking ahead -/

/-- The reader looks at the words that are left and takes none. -/
def Looks (input : Input) (words : List Word) (q : Reader α) (l : List Word → α) : Prop :=
  ∀ cursor, q input cursor = .done (l (words.drop cursor)) cursor

namespace Looks

variable {l l' : List Word → α} {k : α → List Word → β}

theorem pure : Looks input words (Pure.pure a) fun _ ↦ a := fun _ ↦ rfl

/-- Looks are taken one after the other, and none moves the cursor. -/
theorem bind (hq : Looks input words q l) (hf : ∀ a, Looks input words (f a) (k a)) :
    Looks input words (q >>= f) fun ws ↦ k (l ws) ws :=
  fun cursor ↦ (bind_of_done (hq cursor)).trans (hf _ cursor)

/-- What comes behind need only look as it should where this value was seen. -/
theorem bind_seen {m : List Word → β} (hq : Looks input words q l)
    (hf : ∀ a, ∃ k, Looks input words (f a) k ∧ ∀ ws, l ws = a → k ws = m ws) :
    Looks input words (q >>= f) m := by
  intro cursor
  obtain ⟨k, hk, e⟩ := hf (l (words.drop cursor))
  rw [bind_of_done (hq cursor), hk cursor, e _ rfl]

theorem ite {c : Prop} [Decidable c] {q' : Reader α} (hq : Looks input words q l)
    (hq' : Looks input words q' l') :
    Looks input words (if c then q else q') fun ws ↦ if c then l ws else l' ws := by
  split
  · exact hq
  · exact hq'

theorem congr (h : Looks input words q l) (e : ∀ ws, l ws = l' ws) : Looks input words q l' :=
  fun cursor ↦ (h cursor).trans (by rw [e])

end Looks

/-- The kind of the word `n` places behind the first. -/
def kindOf (n : Nat) (ws : List Word) : Option TokenKind := ws[n]?.map Word.kind

/-- Its text, empty if there is none. -/
def textOf (n : Nat) (ws : List Word) : String := (ws[n]?.map Word.text).getD ""

section

variable {w : Word} {ws : List Word} {kind : TokenKind}

@[simp] theorem kindOf_zero_cons : kindOf 0 (w :: ws) = some w.kind := rfl

/-- The kind at the cursor is that of the first word. -/
@[simp] theorem kindOf_zero_eq_some : kindOf 0 ws = some kind ↔ Parser.isAt kind ws = true := by
  cases ws <;> simp [kindOf, Parser.isAt]

@[simp] theorem kindOf_succ (n : Nat) : kindOf (n + 1) ws = kindOf n ws.tail := by
  rw [kindOf, kindOf, List.getElem?_tail]

@[simp] theorem textOf_succ (n : Nat) : textOf (n + 1) ws = textOf n ws.tail := by
  rw [textOf, textOf, List.getElem?_tail]

end

section

variable (h : Presents input words)

include h

/-- What a function reads off a token, another one reads off its word. -/
theorem Presents.map_getElem? {γ : Type} {f : Span → γ} {g : Word → γ}
    (e : ∀ t w, t.kind = w.kind → piece? input.text t.start t.stop = some w.text →
      input.position t.start = w.start → f t = g w) (i : Nat) :
    input.tokens[i]?.map f = words[i]?.map g := by
  cases ht : input.tokens[i]? with
  | none =>
    have := h.length ▸ List.getElem?_eq_none_iff.1 ht
    rw [List.getElem?_eq_none_iff.2 this]
    rfl
  | some t =>
    obtain ⟨w, hw, kind, text, start⟩ := h.token i t ht
    rw [hw]
    exact congrArg some (e t w kind text start)

/-- The kind of a token further on is that of the word. -/
theorem looks_kindAt (n : Nat) : Looks input words (kindAt n) (kindOf n) := by
  intro cursor
  rw [kindAt, kindOf, h.map_getElem? (fun _ _ kind _ _ ↦ kind), List.getElem?_drop]

theorem looks_textAt (n : Nat) : Looks input words (textAt n) (textOf n) := by
  intro cursor
  rw [textAt, textOf, List.getElem?_drop]
  cases ht : input.tokens[cursor + n]? with
  | none =>
    have := h.length ▸ List.getElem?_eq_none_iff.1 ht
    rw [List.getElem?_eq_none_iff.2 this]
    rfl
  | some t =>
    obtain ⟨w, hw, -, text, -⟩ := h.token _ t ht
    dsimp only
    rw [text, hw]
    rfl

/-- The column is counted from the position of the token, and it is `0` at the end of the text. -/
theorem looks_startColumn : Looks input words startColumn Parser.startColumn := by
  intro cursor
  have columns := h.map_getElem? (f := fun t ↦ (input.position t.start).column)
    (g := (·.start.column)) (fun _ _ _ _ start ↦ congrArg Position.column start) cursor
  rw [startColumn, columns, Parser.startColumn, List.head?_drop]

/-- The cursor is at the end when no words are left. -/
theorem looks_isAtEnd : Looks input words isAtEnd List.isEmpty := by
  intro cursor
  have ends : decide (words.length ≤ cursor) = (words.drop cursor).isEmpty := by
    rw [Bool.eq_iff_iff]
    simp
  rw [isAtEnd, h.length, ends]

theorem looks_isAt (kind : TokenKind) : Looks input words (isAt kind) (Parser.isAt kind) :=
  ((looks_kindAt h 0).bind fun _ ↦ .pure).congr fun ws ↦ by simp

theorem looks_isAtText (kind : TokenKind) (text : String) :
    Looks input words (isAtText kind text) (Parser.isAtText kind text) := by
  refine ((looks_isAt h kind).bind fun _ ↦
    .ite ((looks_textAt h 0).bind fun _ ↦ .pure) .pure).congr fun ws ↦ ?_
  cases ws with
  | nil => rfl
  | cons w ws =>
    by_cases hk : w.kind = kind <;> simp [Parser.isAt, Parser.isAtText, textOf, hk]

theorem looks_found : Looks input words found fun ws ↦ ws.head?.map Word.text := by
  refine ((looks_isAtEnd h).bind fun _ ↦
    .ite .pure ((looks_textAt h 0).bind fun _ ↦ .pure)).congr fun ws ↦ ?_
  cases ws <;> rfl

end

/-! ## Doing the same -/

/-- The same comes of a cursor and of the words behind it. -/
inductive Same (words : List Word) (cursor : Nat) :
    Outcome α → Except Fault (α × List Word) → Prop where
  | done (a : α) (next : Nat) (le : cursor ≤ next) (bound : next ≤ words.length) :
      Same words cursor (.done a next) (.ok (a, words.drop next))
  | failed (cause : Cause) (next : Nat) (bound : next ≤ words.length) :
      Same words cursor (.failed cause next) (.error (Parser.faultAt cause (words.drop next)))

/-- The reader does with the cursor what the parser does with the words from there on. -/
def AgreesAt (input : Input) (words : List Word) (q : Reader α) (p : Parser α) (cursor : Nat) :
    Prop :=
  cursor ≤ words.length → Same words cursor (q input cursor) (p (words.drop cursor))

def Agrees (input : Input) (words : List Word) (q : Reader α) (p : Parser α) : Prop :=
  ∀ cursor, AgreesAt input words q p cursor

variable {p p' : Parser α} {g : α → Parser β}

/-- An outcome further on is one behind the cursor. -/
theorem Same.mono {o : Outcome α} {r : Except Fault (α × List Word)} (h : Same words next o r)
    (le : cursor ≤ next) : Same words cursor o r := by
  cases h with
  | done a last le' bound => exact .done a last (le.trans le') bound
  | failed cause last bound => exact .failed cause last bound

namespace AgreesAt

/-- What a reader agrees with can be replaced by what does the same on the words at hand. -/
theorem congr (h : AgreesAt input words q p' cursor)
    (e : p (words.drop cursor) = p' (words.drop cursor)) : AgreesAt input words q p cursor :=
  fun bound ↦ e ▸ h bound

/-- A step that takes no words. -/
theorem of_done (hq : cursor ≤ words.length → q input cursor = .done a cursor)
    (hp : cursor ≤ words.length → p (words.drop cursor) = .ok (a, words.drop cursor)) :
    AgreesAt input words q p cursor := by
  intro bound
  rw [hq bound, hp bound]
  exact .done a cursor (Nat.le_refl _) bound

/-- If both go on from the same place, the sequences agree. -/
theorem bind (hq : AgreesAt input words q p cursor)
    (hf : ∀ a next, cursor ≤ next → p (words.drop cursor) = .ok (a, words.drop next) →
      AgreesAt input words (f a) (g a) next) :
    AgreesAt input words (q >>= f) (p >>= g) cursor := by
  intro bound
  have first := hq bound
  rw [Parser.bind_apply]
  cases ho : q input cursor with
  | done a next =>
    rw [ho] at first
    rw [bind_of_done ho]
    generalize hr : p (words.drop cursor) = r at first
    cases first with
    | done a next le bound => exact (hf a next le hr bound).mono le
  | failed cause next =>
    rw [ho] at first
    rw [bind_of_failed ho]
    generalize p (words.drop cursor) = r at first
    cases first with
    | failed cause next bound => exact .failed cause next bound
  | broken check =>
    rw [ho] at first
    cases first

theorem pure : AgreesAt input words (Pure.pure a) (Pure.pure a) cursor :=
  .of_done (fun _ ↦ rfl) fun _ ↦ rfl

/-- A step that takes a word. -/
theorem bind_advances (hq : AgreesAt input words q p cursor) (advances : Parser.Advances p)
    (hf : ∀ a next, cursor < next → AgreesAt input words (f a) (g a) next) :
    AgreesAt input words (q >>= f) (p >>= g) cursor := by
  refine .bind hq fun a next le e ↦ hf a next ?_
  have := (advances _ _ _ e).2
  rw [List.length_drop, List.length_drop] at this
  omega

/-- A step that may take words. -/
theorem bind_agrees (hq : Agrees input words q p)
    (hf : ∀ a next, cursor ≤ next → AgreesAt input words (f a) (g a) next) :
    AgreesAt input words (q >>= f) (p >>= g) cursor :=
  .bind (hq cursor) fun a next le _ ↦ hf a next le

/-- A step that looks at what the parser sees in any case. -/
theorem look {l : List Word → α} {p : Parser β} (hq : Looks input words q l)
    (hf : AgreesAt input words (f (l (words.drop cursor))) p cursor) :
    AgreesAt input words (q >>= f) p cursor := by
  intro bound
  rw [bind_of_done (hq cursor)]
  exact hf bound

/-- What the parser looks at, and the reader knows already. -/
theorem known {γ : Type} {l : List Word → γ} {q : Reader β} {g : γ → Parser β}
    (hq : AgreesAt input words q (g (l (words.drop cursor))) cursor) :
    AgreesAt input words q (Parser.lookAhead l >>= g) cursor :=
  hq

theorem look_bind {l : List Word → α} (hq : Looks input words q l)
    (hf : AgreesAt input words (f (l (words.drop cursor))) (g (l (words.drop cursor))) cursor) :
    AgreesAt input words (q >>= f) (Parser.lookAhead l >>= g) cursor :=
  .look hq hf.known

theorem ite {c d : Prop} [Decidable c] [Decidable d] {q' : Reader α} (iff : c ↔ d)
    (hq : d → AgreesAt input words q p cursor) (hq' : ¬ d → AgreesAt input words q' p' cursor) :
    AgreesAt input words (if c then q else q') (if d then p else p') cursor := by
  by_cases hd : d
  · rw [if_pos (iff.2 hd), if_pos hd]
    exact hq hd
  · rw [if_neg fun hc ↦ hd (iff.1 hc), if_neg hd]
    exact hq' hd

end AgreesAt

namespace Agrees

/-- Sequences of readers that agree everywhere. -/
theorem bind (hq : Agrees input words q p) (hf : ∀ a, Agrees input words (f a) (g a)) :
    Agrees input words (q >>= f) (p >>= g) :=
  fun _ ↦ .bind_agrees hq fun a next _ ↦ hf a next

theorem pure : Agrees input words (Pure.pure a) (Pure.pure a) := fun _ ↦ .pure

theorem lookAhead {l : List Word → α} (hq : Looks input words q l) :
    Agrees input words q (Parser.lookAhead l) :=
  fun cursor ↦ .of_done (fun _ ↦ hq cursor) fun _ ↦ rfl

theorem ite {c : Prop} [Decidable c] {q' : Reader α} (hq : Agrees input words q p)
    (hq' : Agrees input words q' p') :
    Agrees input words (if c then q else q') (if c then p else p') :=
  fun cursor ↦ .ite .rfl (fun _ ↦ hq cursor) fun _ ↦ hq' cursor

/-- Two ways to go on with the same continuation. -/
theorem join {c : Prop} [Decidable c] {q' : Reader α} (hq : Agrees input words q p)
    (hq' : Agrees input words q' p') (hf : ∀ a, Agrees input words (f a) (g a)) :
    Agrees input words (if c then q >>= f else q' >>= f) (if c then p >>= g else p' >>= g) :=
  .ite (.bind hq hf) (.bind hq' hf)

theorem fail {cause : Cause} : Agrees input words (fail cause : Reader α) (Parser.fail cause) :=
  fun cursor bound ↦ .failed cause cursor bound

end Agrees

/-! ## Taking words -/

section

variable (h : Presents input words)

include h

/-- A failure names the same token and has the same position. -/
theorem agrees_failExpecting {what : String} :
    Agrees input words (failExpecting what : Reader α) (Parser.failExpecting what) :=
  fun cursor ↦ .look (looks_found h) (Agrees.fail cursor)

/-- Moving the cursor is dropping words, as long as there are enough of them. -/
theorem AgreesAt.move_bind {n : Nat} {f : Unit → Reader β} {g : Unit → Parser β}
    (room : n ≤ (words.drop cursor).length)
    (hf : AgreesAt input words (f ()) (g ()) (cursor + n)) :
    AgreesAt input words (move n >>= f) (Parser.skip n >>= g) cursor := by
  intro bound
  rw [List.length_drop] at room
  have moved : move n input cursor = .done () (cursor + n) := by
    rw [move, h.length, if_pos (by omega)]
  rw [bind_of_done moved, Parser.skip_bind, List.drop_drop]
  exact (hf (by omega)).mono (Nat.le_add_right _ _)

/-- Going over the next word. -/
theorem AgreesAt.move_one {w : Word} {ws : List Word} {f : Unit → Reader β} {p p' : Parser β}
    (hw : words.drop cursor = w :: ws) (e : p (w :: ws) = p' ws)
    (hf : AgreesAt input words (f ()) p' (cursor + 1)) :
    AgreesAt input words (move 1 >>= f) p cursor := by
  refine .congr (.move_bind h (g := fun _ ↦ p') (by simp [hw]) hf) ?_
  rw [hw, e]
  rfl

theorem eat_of_isAt {kind : TokenKind} (here : Parser.isAt kind (words.drop cursor) = true) :
    eat kind input cursor = .done true (cursor + 1) := by
  have seen := looks_isAt h kind cursor
  rw [here] at seen
  have moved : move 1 input cursor = .done () (cursor + 1) := by
    rw [move, h.length, if_pos (Nat.succ_le_of_lt (Parser.lt_length_of_isAt here))]
  rw [eat, bind_of_done seen, if_pos rfl, bind_of_done moved]
  rfl

theorem eat_of_not_isAt {kind : TokenKind} (here : Parser.isAt kind (words.drop cursor) = false) :
    eat kind input cursor = .done false cursor := by
  have seen := looks_isAt h kind cursor
  rw [here] at seen
  rw [eat, bind_of_done seen, if_neg (by simp)]
  rfl

/-- A token that may be there, with both ways on from it. -/
theorem AgreesAt.eat_ite {kind : TokenKind} {q q' : Reader β} {p p' : Parser β}
    (taken : AgreesAt input words q p (cursor + 1)) (other : AgreesAt input words q' p' cursor) :
    AgreesAt input words (eat kind >>= fun b ↦ if b then q else q')
      (Parser.eat kind >>= fun b ↦ if b then p else p') cursor := by
  intro bound
  cases here : Parser.isAt kind (words.drop cursor) with
  | true =>
    rw [bind_of_done (eat_of_isAt h here), Parser.bind_of_ok (Parser.eat_of_isAt here),
      List.tail_drop]
    exact (taken (Parser.lt_length_of_isAt here)).mono (Nat.le_succ _)
  | false =>
    rw [bind_of_done (eat_of_not_isAt h here), Parser.bind_of_ok (Parser.eat_of_not_isAt here)]
    exact other bound

theorem agrees_eat {kind : TokenKind} : Agrees input words (eat kind) (Parser.eat kind) := by
  intro cursor bound
  cases here : Parser.isAt kind (words.drop cursor) with
  | true =>
    rw [eat_of_isAt h here, Parser.eat_of_isAt here, List.tail_drop]
    exact .done true _ (Nat.le_succ _) (Parser.lt_length_of_isAt here)
  | false =>
    rw [eat_of_not_isAt h here, Parser.eat_of_not_isAt here]
    exact .done false _ (Nat.le_refl _) bound

/-- An expected token: its text is in range, and its absence is reported at the same position. -/
theorem agrees_expect {kind : TokenKind} {what : String} :
    Agrees input words (expect kind what) (Parser.expect kind what) := by
  intro cursor
  have written (ws : List Word) : Parser.expect kind what ws =
      (if Parser.isAt kind ws then do
        Parser.skip 1
        return textOf 0 ws
      else Parser.failExpecting what : Parser String) ws := by
    cases ws with
    | nil => rfl
    | cons w ws =>
      by_cases hk : w.kind = kind <;> simp [Parser.expect, Parser.isAt, textOf, hk]
  refine .look (looks_isAt h kind) (.congr (.ite .rfl (fun here ↦ ?_) fun _ ↦ ?_) (written _))
  · exact .look (looks_textAt h 0)
      (.move_bind h (List.length_pos_iff.2 (Parser.ne_nil_of_isAt here)) .pure)
  · exact agrees_failExpecting h cursor

theorem agrees_ident {what : String} : Agrees input words (ident what) (Parser.ident what) :=
  agrees_expect h

/-! ## Source text -/

/-- The comments in front of a token are those of its word. -/
theorem AgreesAt.docBefore_bind {start : Nat} {f : Option Snippet → Reader β} {p : Parser β}
    (hf : AgreesAt input words (f (words[start]?.bind Word.doc)) p cursor) :
    AgreesAt input words (docBefore start >>= f) p cursor := by
  intro bound
  have doc : docBefore start input cursor = .done (words[start]?.bind Word.doc) cursor := by
    rw [docBefore, h.doc]
  rw [bind_of_done doc]
  exact hf bound

/-- The slice between two tokens is the source text of the words from one to the other. -/
theorem AgreesAt.slice_bind {first : Nat} {f : String → Reader β} {p : Parser β}
    (lt : first < cursor) (hf : AgreesAt input words
      (f (sourceText ((words.drop first).take (cursor - first)))) p cursor) :
    AgreesAt input words (slice first (cursor - 1) >>= f) p cursor := by
  intro bound
  rw [bind_of_done (h.source first cursor cursor lt bound)]
  exact hf bound

end

theorem AgreesAt.here_bind {f : Nat → Reader β} {p : Parser β}
    (hf : AgreesAt input words (f cursor) p cursor) :
    AgreesAt input words (here >>= f) p cursor :=
  hf

/-- The last token taken is the one in front of the cursor. There is one if the cursor has
moved. -/
theorem AgreesAt.lastTaken_bind {f : Nat → Reader β} {p : Parser β} (positive : 0 < cursor)
    (hf : AgreesAt input words (f (cursor - 1)) p cursor) :
    AgreesAt input words (lastTaken >>= f) p cursor := by
  obtain ⟨n, rfl⟩ := Nat.exists_eq_add_one.2 positive
  exact hf

/-- A reader that takes a word has a first and a last one. -/
theorem AgreesAt.bounds_bind {q : Reader Unit} {p : Parser Unit} {f : Nat × Nat → Reader β}
    {g : Unit → Parser β} (hq : Agrees input words q p) (advances : Parser.Advances p)
    (hf : ∀ next, cursor < next → AgreesAt input words (f (cursor, next - 1)) (g ()) next) :
    AgreesAt input words (bounds q >>= f) (p >>= g) cursor := by
  rw [bounds, bind_assoc]
  refine .here_bind ?_
  rw [bind_assoc]
  refine .bind_advances (hq cursor) advances fun _ next lt ↦ ?_
  rw [bind_assoc]
  exact .lastTaken_bind (Nat.zero_lt_of_lt lt) (hf next lt)

/-- The words that a parser takes, by how many are left. -/
def takenFrom (ws vs : List Word) : List Word := ws.take (ws.length - vs.length)

/-- The words that were taken lie between the two places of the cursor. -/
theorem takenFrom_drop (bound : next ≤ words.length) :
    takenFrom (words.drop cursor) (words.drop next) = (words.drop cursor).take (next - cursor) := by
  have count : (words.drop cursor).length - (words.drop next).length = next - cursor := by
    rw [List.length_drop, List.length_drop]
    omega
  rw [takenFrom, count]

/-- The source of a reader, from the words in front and behind. -/
theorem withSource_eq {p : Parser α} {ws : List Word} : Parser.withSource p ws =
    (p >>= fun a vs ↦ .ok ((Parser.sourceText? (takenFrom ws vs), a), vs) :
      Parser (Option String × α)) ws := by
  rw [Parser.withSource, Parser.bind_apply]
  cases p ws with
  | error e => rfl
  | ok r =>
    change Except.ok ((if (takenFrom ws r.2).isEmpty then none else
      some (sourceText (takenFrom ws r.2)), r.1), r.2) = Except.ok _
    cases takenFrom ws r.2 <;> rfl

theorem sourceOf_eq {p : Parser Unit} {ws : List Word} : Parser.sourceOf p ws =
    (p >>= fun _ vs ↦ .ok (sourceText (takenFrom ws vs), vs) : Parser String) ws := by
  rw [Parser.sourceOf, Parser.bind_apply, withSource_eq, Parser.bind_apply, Parser.bind_apply]
  cases p ws with
  | error e => rfl
  | ok r =>
    change Except.ok ((Parser.sourceText? (takenFrom ws r.2)).getD "", r.2) = Except.ok _
    cases takenFrom ws r.2 <;> rfl

section

variable (h : Presents input words)

include h

/-- The source that is sliced from the text is that of the words which were taken. -/
theorem agrees_sourceOf {q : Reader Unit} {p : Parser Unit} (hq : Agrees input words q p)
    (advances : Parser.Advances p) : Agrees input words (sourceOf q) (Parser.sourceOf p) := by
  refine fun cursor ↦ .congr (.bounds_bind hq advances fun next lt ↦ ?_) sourceOf_eq
  refine .of_done (h.source cursor next next lt) fun bound ↦ ?_
  rw [takenFrom_drop bound]

/-- The same where nothing may be taken: then no slice is made. -/
theorem agrees_withSource (hq : Agrees input words q p) :
    Agrees input words (withSource q) (Parser.withSource p) := by
  intro cursor
  refine .congr (.here_bind (.bind (hq cursor) fun a next le _ ↦ .here_bind ?_)) withSource_eq
  by_cases lt : cursor < next
  · rw [if_pos lt]
    refine .lastTaken_bind (Nat.zero_lt_of_lt lt) (.slice_bind h lt (.of_done (fun _ ↦ rfl) ?_))
    intro bound
    have some_ : Parser.sourceText? ((words.drop cursor).take (next - cursor)) =
        some (sourceText ((words.drop cursor).take (next - cursor))) := by
      cases ht : (words.drop cursor).take (next - cursor) with
      | nil =>
        have := congrArg List.length ht
        rw [List.length_take, List.length_drop, List.length_nil] at this
        omega
      | cons w ws => rfl
    rw [takenFrom_drop bound, some_]
  · obtain rfl : cursor = next := by omega
    rw [if_neg lt]
    refine .of_done (fun _ ↦ rfl) fun bound ↦ ?_
    rw [takenFrom_drop bound, Nat.sub_self]
    rfl

end

/-! ## Loops -/

/-- A loop agrees with a parser if each turn does when those that it leaves to the next ones do. -/
theorem agrees_fixpoint (length : input.tokens.length = words.length)
    {rule : (σ → Reader α) → σ → Reader α} {p : σ → Parser α}
    (turn : ∀ (loop : σ → Reader α) s cursor,
      (∀ t next, cursor < next → AgreesAt input words (loop t) (p t) next) →
        AgreesAt input words (rule loop s) (p s) cursor) (s : σ) :
    Agrees input words (fixpoint rule s) (p s) := by
  have all : ∀ n s cursor, words.length - cursor < n →
      AgreesAt input words (unfolded rule n s) (p s) cursor := by
    intro n
    induction n with
    | zero => exact fun _ _ hn ↦ (Nat.not_lt_zero _ hn).elim
    | succ n ih =>
      intro s cursor hn bound
      refine turn (fun t ↦ later cursor (unfolded rule n t)) s cursor
        (fun t next lt hnext ↦ ?_) bound
      rw [later, if_pos lt]
      exact ih t next (by omega) hnext
  intro cursor bound
  rw [fixpoint, length]
  exact all _ s cursor (Nat.lt_succ_self _) bound

end PlatformOverlay.Java.Indexed
