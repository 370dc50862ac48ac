import PlatformOverlay.Text.Position
import PlatformOverlay.Java.Decl
import PlatformOverlay.Java.Lexer

/-!
# Words

The tokens that are not comments, each with the source text between it and the word
before it.  The comments in that gap which start on a later line than the previous
word ends document the declaration that starts here; a comment behind the previous
word on its line stays with that word.
-/

namespace PlatformOverlay.Java

open Text (Position)

structure Word where
  kind : TokenKind
  text : String
  /-- The source text between the previous word and this one. -/
  gap : String
  /-- The comments that document a declaration starting with this word. -/
  doc : Option Snippet
  start : Position
deriving DecidableEq, Repr

/-- What has been read since the last word. -/
structure Gap where
  text : String
  /-- Has a line ended since the last word?  At the start of a file there is no word
  for a comment to stay with, which counts as yes. -/
  freshLine : Bool
  doc : Option Snippet
  /-- The position just after the gap. -/
  stop : Position
deriving DecidableEq, Repr

namespace Gap

def atStart : Gap := ⟨"", true, none, .origin⟩

def after (stop : Position) : Gap := ⟨"", false, none, stop⟩

def blank (g : Gap) (text : String) : Gap where
  text := g.text ++ text
  freshLine := g.freshLine || text.toList.contains '\n'
  doc := g.doc
  stop := g.stop.advance text

/-- Read blanks and a comment.  A documenting comment takes in all that follow it. -/
def comment (g : Gap) (t : Token) : Gap :=
  let before := g.blank t.blank
  let after := before.blank t.text
  { after with
    doc := match g.doc with
      | some doc => some ⟨doc.text ++ t.blank ++ t.text, doc.column⟩
      | none => if before.freshLine then some ⟨t.text, before.stop.column⟩ else none }

/-- The word that a token is when it ends the gap. -/
def word (g : Gap) (t : Token) : Word :=
  let before := g.blank t.blank
  ⟨t.kind, t.text, before.text, g.doc, before.stop⟩

end Gap

/-- The words of a list of tokens that follows a gap. -/
def wordsAfter : Gap → List Token → List Word
  | _, [] => []
  | g, t :: ts =>
      if t.kind.isComment then wordsAfter (g.comment t) ts
      else
        let w := g.word t
        w :: wordsAfter (.after (w.start.advance t.text)) ts

def wordsOf (tokens : List Token) : List Word := wordsAfter .atStart tokens

/-- The source text from the first to the last of some consecutive words. -/
def sourceText : List Word → String
  | [] => ""
  | w :: ws => w.text ++ String.join (ws.map fun v ↦ v.gap ++ v.text)

end PlatformOverlay.Java
