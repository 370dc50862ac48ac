import PlatformOverlay.Java.Word

/-!
# Parsers over words

A parser takes words from the front of a list.  Where it fails, the fault names the cause and the
position of the first word not taken, or none at the end of the text.

Rules that refer to themselves are built with `fixpoint`, which unfolds a rule once for each word
that is left, and once more.  `fixpoint_eq` says when that is enough: when the rule calls itself
only after at least one word has been taken.

A parser does not go back. Where the grammar has to look further, `lookAhead` asks a question about
the words that are left and takes none of them, and the parser goes on by the answer.

A fault of the cause `stuck` is for a rule that has been unfolded as often as allowed and still
calls itself. No text gets there.
-/

namespace PlatformOverlay.Java

open Text (Position)

inductive Cause where
  /-- Something else, or nothing, stands where `what` should stand. -/
  | expected (what : String) (found : Option String)
  | unexpected (found : Option String)
  | unexpectedEnd
  | unbalanced
  | unclosedBody (name : String)
  /-- The part of a declaration that `what` names is empty. -/
  | absent (what : String)
  | unrecognized
  /-- A rule called itself without taking a word. -/
  | stuck
deriving DecidableEq, Repr

namespace Cause

def foundText : Option String → String
  | none => "end of file"
  | some text => "'" ++ text ++ "'"

def message : Cause → String
  | .expected what found => "expected " ++ what ++ ", found " ++ foundText found
  | .unexpected found => "unexpected " ++ foundText found
  | .unexpectedEnd => "unexpected end of file"
  | .unbalanced => "unbalanced delimiter"
  | .unclosedBody name => "unclosed body of " ++ name
  | .absent what => "expected " ++ what
  | .unrecognized => "unrecognized character"
  | .stuck => "no progress"

end Cause

structure Fault where
  cause : Cause
  /-- Where the first word not taken starts; `none` stands for the end of the text. -/
  position : Option Position
deriving DecidableEq, Repr

abbrev Parser := StateT (List Word) (Except Fault)

namespace Parser

variable {α σ : Type}

def faultAt (cause : Cause) (ws : List Word) : Fault := ⟨cause, ws.head?.map Word.start⟩

def fail (cause : Cause) : Parser α := fun ws ↦ .error (faultAt cause ws)

/-- Fail because `what` was expected here. -/
def failExpecting (what : String) : Parser α :=
  fun ws ↦ .error (faultAt (.expected what (ws.head?.map Word.text)) ws)

/-- Look at the words that are left. -/
def lookAhead (f : List Word → α) : Parser α := fun ws ↦ .ok (f ws, ws)

def isAt (kind : TokenKind) (ws : List Word) : Bool := ws.head?.any (·.kind = kind)

/-- Is the first word of this kind and spelled so? -/
def isAtText (kind : TokenKind) (text : String) (ws : List Word) : Bool :=
  ws.head?.any fun w ↦ w.kind = kind && w.text = text

/-- Take the given number of words. -/
def skip (n : Nat) : Parser Unit := fun ws ↦ .ok ((), ws.drop n)

/-- Take a word of the given kind if one comes next. -/
def eat (kind : TokenKind) : Parser Bool := fun ws ↦
  if isAt kind ws then .ok (true, ws.tail) else .ok (false, ws)

def expect (kind : TokenKind) (what : String) : Parser String := fun ws ↦
  match ws with
  | w :: rest => if w.kind = kind then .ok (w.text, rest) else failExpecting what ws
  | [] => failExpecting what ws

def ident (what : String) : Parser String := expect .ident what

/-- The source text of the words that a parser takes, `none` if it takes none, with its
result. -/
def withSource (p : Parser α) : Parser (Option String × α) := fun ws ↦
  match p ws with
  | .error e => .error e
  | .ok (a, rest) =>
      let taken := ws.take (ws.length - rest.length)
      .ok ((if taken.isEmpty then none else some (sourceText taken), a), rest)

/-- The source text of the words that a parser takes. -/
def sourceOf (p : Parser Unit) : Parser String := do
  let (source, _) ← withSource p
  return source.getD ""

/-! ## Rules that refer to themselves -/

/-- Unfold a rule at most `n` times. -/
def unfolded (rule : (σ → Parser α) → σ → Parser α) : Nat → σ → Parser α
  | 0 => fun _ ↦ fail .stuck
  | n + 1 => rule (unfolded rule n)

/-- The parser that a rule referring to itself describes. -/
def fixpoint (rule : (σ → Parser α) → σ → Parser α) (s : σ) : Parser α :=
  fun ws ↦ unfolded rule (ws.length + 1) s ws

/-- The rule calls itself only on fewer words than it was given. -/
def CallsOnFewer (rule : (σ → Parser α) → σ → Parser α) : Prop :=
  ∀ (f g : σ → Parser α) (s : σ) (ws : List Word),
    (∀ t vs, vs.length < ws.length → f t vs = g t vs) → rule f s ws = rule g s ws

/-- Unfoldings of a rule agree on texts that are shorter than both of their depths. -/
theorem unfolded_eq_of_lt {rule : (σ → Parser α) → σ → Parser α} (h : CallsOnFewer rule) :
    ∀ {m n : Nat} {s : σ} {ws : List Word}, ws.length < m → ws.length < n →
      unfolded rule m s ws = unfolded rule n s ws := by
  intro m
  induction m with
  | zero => intro n s ws hm; omega
  | succ m ih =>
    intro n s ws hm hn
    cases n with
    | zero => omega
    | succ n => exact h _ _ s ws fun t vs hv ↦ ih (by omega) (by omega)

/-- A fixpoint satisfies the equation that its rule describes. -/
theorem fixpoint_eq {rule : (σ → Parser α) → σ → Parser α} (h : CallsOnFewer rule) (s : σ)
    (ws : List Word) : fixpoint rule s ws = rule (fixpoint rule) s ws :=
  h _ _ s ws fun t vs hv ↦ unfolded_eq_of_lt h (by omega) (by omega)

end Parser

end PlatformOverlay.Java
