import PlatformOverlay.Java.Parser.Basic
import PlatformOverlay.Proofs.Java.Located

/-!
# Reading with a cursor

A reader that holds all tokens of a text and the place of the next one, as numbers.  Whatever it
does with numbers is checked: the cursor never passes the last token (`move`), there is a token
before it where one is asked for (`lastTaken`), text is cut between tokens that are there and in
order, at characters (`slice`), and so are comments (`docBefore`), and each turn of a loop takes a
token (`fixpoint`).  A check that fails ends the reading for good (`Outcome.broken`).

A broken reading is told from a fault, which is an answer about the text. Neither choices nor loops
catch it, so a reader in which it does not occur has passed all checks on the way. Where a check
guards a subtraction or an index, the value behind it is only computed if the check has passed.
-/

namespace PlatformOverlay.Java.Indexed

open Text (piece?)

/-- The number of elements in front for which the predicate holds, if it holds for none behind
them. -/
def partitionPoint? {α : Type} (holds : α → Bool) (as : List α) : Option Nat :=
  if (as.dropWhile holds).any holds then none else some (as.takeWhile holds).length

/-- Where the token at the cursor starts, or the text ends. -/
def offsetAt (input : Input) (cursor : Nat) : Nat :=
  (input.tokens[cursor]?.map Span.start).getD input.text.utf8ByteSize

/-! ## Outcomes -/

inductive Check where
  /-- The cursor stays among the tokens. -/
  | cursor
  /-- There is a token in front of the cursor. -/
  | before
  /-- There are tokens with these indices, and the first one is not behind the last. -/
  | tokens
  /-- The ends of a byte range are in order and between characters. -/
  | range
  /-- Comments are in order, and those that are asked for are there. -/
  | comments
  /-- A turn of a loop takes a token before the next one begins. -/
  | progress
  /-- There are no more turns than tokens. -/
  | depth

inductive Outcome (α : Type) where
  | done (a : α) (cursor : Nat)
  | failed (cause : Cause) (cursor : Nat)
  | broken (check : Check)

/-- A reader of the tokens from the cursor on. -/
def Reader (α : Type) : Type := Input → Nat → Outcome α

variable {α β σ : Type}

instance : Monad Reader where
  pure a := fun _ cursor ↦ .done a cursor
  bind q f := fun input cursor ↦
    match q input cursor with
    | .done a next => f a input next
    | .failed cause next => .failed cause next
    | .broken check => .broken check

/-! ## The cursor -/

def fail (cause : Cause) : Reader α := fun _ cursor ↦ .failed cause cursor

/-- Fail with the cursor back at the given token. -/
def failAt (cursor : Nat) (cause : Cause) : Reader α := fun _ _ ↦ .failed cause cursor

def here : Reader Nat := fun _ cursor ↦ .done cursor cursor

def isAtEnd : Reader Bool := fun input cursor ↦ .done (input.tokens.length ≤ cursor) cursor

def kindAt (n : Nat) : Reader (Option TokenKind) := fun input cursor ↦
  .done (input.tokens[cursor + n]?.map Span.kind) cursor

/-- The text of the token `n` places behind the cursor, empty if there is none. -/
def textAt (n : Nat) : Reader String := fun input cursor ↦
  match input.tokens[cursor + n]? with
  | none => .done "" cursor
  | some t =>
    match piece? input.text t.start t.stop with
    | some text => .done text cursor
    | none => .broken .range

def isAt (kind : TokenKind) : Reader Bool := do return (← kindAt 0) = some kind

def isAtText (kind : TokenKind) (text : String) : Reader Bool := do
  if ← isAt kind then return (← textAt 0) = text else return false

/-- Go over tokens. -/
def move (n : Nat) : Reader Unit := fun input cursor ↦
  if cursor + n ≤ input.tokens.length then .done () (cursor + n) else .broken .cursor

/-- The index of the token in front of the cursor. -/
def lastTaken : Reader Nat := fun _ cursor ↦
  match cursor with
  | 0 => .broken .before
  | n + 1 => .done n cursor

def found : Reader (Option String) := do
  if ← isAtEnd then return none else return some (← textAt 0)

def failExpecting (what : String) : Reader α := do fail (.expected what (← found))

def eat (kind : TokenKind) : Reader Bool := do
  if ← isAt kind then
    move 1
    return true
  else return false

def expect (kind : TokenKind) (what : String) : Reader String := do
  if ← isAt kind then
    let text ← textAt 0
    move 1
    return text
  else failExpecting what

def ident (what : String) : Reader String := expect .ident what

/-! ## Source text -/

/-- The source text from one token to another. -/
def slice (first last : Nat) : Reader String := fun input cursor ↦
  match input.tokens[first]?, input.tokens[last]? with
  | some f, some l =>
    if first ≤ last then
      match piece? input.text f.start l.stop with
      | some text => .done text cursor
      | none => .broken .range
    else .broken .tokens
  | _, _ => .broken .tokens

/-- The indices of the first and the last token that a reader takes. -/
def bounds (q : Reader Unit) : Reader (Nat × Nat) := do
  let first ← here
  q
  return (first, ← lastTaken)

/-- The source text of the tokens that a reader takes. -/
def sourceOf (q : Reader Unit) : Reader String := do
  let (first, last) ← bounds q
  slice first last

/-- The source text of the tokens that a reader takes, `none` if it takes none, with its result. -/
def withSource (q : Reader α) : Reader (Option String × α) := do
  let first ← here
  let a ← q
  if first < (← here) then return (some (← slice first (← lastTaken)), a)
  else return (none, a)

/-- The column of the token at the cursor. -/
def startColumn : Reader Nat := fun input cursor ↦
  .done ((input.tokens[cursor]?.map fun t ↦ (input.position t.start).column).getD 0) cursor

/-- The comments that document what begins with the token of this index: of those between it and
the token in front, if there is one, those that start on a later line than that one ends. -/
def docOf (input : Input) (index : Nat) : Except Check (Option Snippet) :=
  match input.tokens[index]? with
  | none => .ok none
  | some t =>
    if 0 < index ∧ (input.before? index).isNone then .error .tokens
    else
      let before := (input.before? index).map Span.stop
      let line := before.map fun stop ↦ (input.position stop).line
      match partitionPoint? (·.stop ≤ before.getD 0) input.comments,
          partitionPoint? (·.stop ≤ t.start) input.comments with
      | some first, some behind =>
        if first ≤ behind ∧ behind ≤ input.comments.length then
          match ((input.comments.drop first).take (behind - first)).filter fun c ↦
              isBehind line (input.position c.start) with
          | [] => .ok none
          | c :: cs =>
            match piece? input.text c.start ((c :: cs).getLast (List.cons_ne_nil c cs)).stop with
            | some text => .ok (some ⟨text, (input.position c.start).column⟩)
            | none => .error .range
        else .error .comments
      | _, _ => .error .comments

def docBefore (index : Nat) : Reader (Option Snippet) := fun input cursor ↦
  match docOf input index with
  | .ok doc => .done doc cursor
  | .error check => .broken check

/-! ## Loops -/

/-- The next turn of a loop, at a cursor behind that of this one. -/
def later (start : Nat) (q : Reader α) : Reader α := fun input cursor ↦
  if start < cursor then q input cursor else .broken .progress

/-- At most `n` turns. -/
def unfolded (rule : (σ → Reader α) → σ → Reader α) : Nat → σ → Reader α
  | 0 => fun _ _ _ ↦ .broken .depth
  | n + 1 => fun s input cursor ↦ rule (fun t ↦ later cursor (unfolded rule n t)) s input cursor

/-- As many turns as there are tokens left, and one more. -/
def fixpoint (rule : (σ → Reader α) → σ → Reader α) (s : σ) : Reader α := fun input cursor ↦
  unfolded rule (input.tokens.length - cursor + 1) s input cursor

end PlatformOverlay.Java.Indexed
