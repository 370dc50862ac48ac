/-!
# Causes of failing file operations

Why an operation on files failed, in the words of the operating system.
-/

namespace PlatformOverlay.Files

/-- Why a file system operation failed. -/
inductive IoCause where
  | notFound
  | notADirectory
  | isADirectory
  | exists
  | notText
deriving DecidableEq, Repr

namespace IoCause

def message : IoCause → String
  | .notFound => "No such file or directory (os error 2)"
  | .notADirectory => "Not a directory (os error 20)"
  | .isADirectory => "Is a directory (os error 21)"
  | .exists => "File exists (os error 17)"
  | .notText => "stream did not contain valid UTF-8"

end IoCause

end PlatformOverlay.Files
