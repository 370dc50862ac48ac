import PlatformOverlay.Path
import PlatformOverlay.Java.Parser.Declaration

/-!
# Reading a source file

`parse` reads the text of a file.  The file `module-info.java` declares no types and
is not read.
-/

namespace PlatformOverlay.Java

open Text (Position LineIndex)

structure SyntaxError where
  path : Path
  position : Position
  cause : Cause
deriving DecidableEq, Repr

namespace SyntaxError

def message (e : SyntaxError) : String :=
  e.path.text ++ ":" ++ e.position.render ++ ": " ++ e.cause.message

end SyntaxError

def isModuleInfo (path : Path) : Bool := path.fileName? = some "module-info.java"

def parse (path : Path) (text : String) : Except SyntaxError CompilationUnit :=
  if isModuleInfo path then .ok .empty
  else
    let index := LineIndex.ofText text
    match tokenize text with
    | .error e => .error ⟨path, index.position e.offset, .unrecognized⟩
    | .ok lexed =>
      match Parser.compilationUnit (wordsOf lexed.tokens) with
      | .ok (unit, _) => .ok unit
      | .error fault =>
          .error ⟨path, fault.position.getD (index.position text.utf8ByteSize), fault.cause⟩

end PlatformOverlay.Java
