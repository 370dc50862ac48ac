import PlatformOverlay.Java.Modifier

/-!
# Tokens

Only the structure of declarations matters, so literals and operators are opaque:
a literal is one token and an operator is taken one character at a time.  A token
carries the blanks in front of it, so that nothing of the source text is lost.
-/

namespace PlatformOverlay.Java

inductive Keyword where
  | packageWord
  | importWord
  | classWord
  | interfaceWord
  | enumWord
  | extendsWord
  | implementsWord
  | throwsWord
  | modifier (m : Modifier)
deriving DecidableEq, Repr

namespace Keyword

def text : Keyword → String
  | .packageWord => "package"
  | .importWord => "import"
  | .classWord => "class"
  | .interfaceWord => "interface"
  | .enumWord => "enum"
  | .extendsWord => "extends"
  | .implementsWord => "implements"
  | .throwsWord => "throws"
  | .modifier m => m.keyword

def all : List Keyword :=
  [.packageWord, .importWord, .classWord, .interfaceWord, .enumWord, .extendsWord,
    .implementsWord, .throwsWord] ++ Modifier.reserved.map .modifier

def ofText? (word : String) : Option Keyword := all.find? (·.text = word)

end Keyword

inductive Punct where
  | lbrace
  | rbrace
  | lparen
  | rparen
  | lbracket
  | rbracket
  | semi
  | comma
  | dot
  | ellipsis
  | atSign
  | lt
  | gt
deriving DecidableEq, Repr

namespace Punct

def text : Punct → String
  | .lbrace => "\x7b"
  | .rbrace => "\x7d"
  | .lparen => "("
  | .rparen => ")"
  | .lbracket => "["
  | .rbracket => "]"
  | .semi => ";"
  | .comma => ","
  | .dot => "."
  | .ellipsis => "..."
  | .atSign => "@"
  | .lt => "<"
  | .gt => ">"

/-- The mark that one character is. -/
def ofChar? (c : Char) : Option Punct :=
  if c = '\x7b' then some .lbrace
  else if c = '\x7d' then some .rbrace
  else if c = '(' then some .lparen
  else if c = ')' then some .rparen
  else if c = '[' then some .lbracket
  else if c = ']' then some .rbracket
  else if c = ';' then some .semi
  else if c = ',' then some .comma
  else if c = '.' then some .dot
  else if c = '@' then some .atSign
  else if c = '<' then some .lt
  else if c = '>' then some .gt
  else none

end Punct

inductive TokenKind where
  | lineComment
  | blockComment
  | keyword (k : Keyword)
  | ident
  | stringLiteral
  | textBlock
  | charLiteral
  | number
  | punct (p : Punct)
  | operator
deriving DecidableEq, Repr

namespace TokenKind

def isComment : TokenKind → Bool
  | .lineComment | .blockComment => true
  | _ => false

end TokenKind

structure Token where
  kind : TokenKind
  /-- The blanks between the previous token and this one. -/
  blank : String
  text : String
deriving DecidableEq, Repr

/-- Kind and byte range of each token of a list that starts at the given offset. -/
def Token.spans : Nat → List Token → List (TokenKind × Nat × Nat)
  | _, [] => []
  | offset, t :: ts =>
      let start := offset + t.blank.utf8ByteSize
      let stop := start + t.text.utf8ByteSize
      (t.kind, start, stop) :: spans stop ts

end PlatformOverlay.Java
