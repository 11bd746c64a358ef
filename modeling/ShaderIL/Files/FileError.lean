/-!
# Refused file operations
-/

namespace ShaderIL

/-- Why a file operation is refused. -/
inductive FileCause where
  | notFound
  | notDirectory
  | isDirectory
  | nameTooLong
  | invalid
  | other (text : String)
  deriving DecidableEq, Repr

/-- The wording of a cause. -/
def FileCause.text : FileCause → String
  | notFound => "no such file or directory"
  | notDirectory => "not a directory"
  | isDirectory => "is a directory"
  | nameTooLong => "file name too long"
  | invalid => "invalid argument"
  | other text => text

/-- A refused operation on a path. -/
structure FileError where
  operation : String
  path : String
  cause : FileCause
  deriving DecidableEq, Repr

/-- The text of a refusal. -/
def FileError.message (e : FileError) : String :=
  e.operation ++ " " ++ e.path ++ ": " ++ e.cause.text

/-- What asking for a path tells. -/
inductive Status where
  | present
  | missing
  | failed (cause : FileCause)
  deriving DecidableEq, Repr

end ShaderIL
