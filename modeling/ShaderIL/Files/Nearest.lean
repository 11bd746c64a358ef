import ShaderIL.Files.FileError
import ShaderIL.Files.Path
import ShaderIL.Text.Quoted

/-!
# The nearest file of a name

`nearest` asks for a file in a directory, then in its parent, and so on up to the root. The first
answer other than "missing" decides.
-/

namespace ShaderIL

/-- The outcome of a search. -/
inductive Nearest where
  | found (file : Path)
  | nowhere
  | failed (file : Path) (cause : FileCause)
  deriving DecidableEq, Repr

/-- The text of a failed search. -/
def Nearest.failureMessage (file : Path) (cause : FileCause) : String :=
  "failed to stat " ++ Text.quoted file.text ++ ": " ++
    (FileError.mk "stat" file.text cause).message

/-- Ask for a file in a directory; if it is missing, go on otherwise. -/
def lookIn {m : Type → Type} [Monad m] (ask : Path → m Status) (name : String) (directory : Path)
    (otherwise : m Nearest) : m Nearest := do
  let file := directory.push name
  match ← ask file with
  | .present => return .found file
  | .failed cause => return .failed file cause
  | .missing => otherwise

/-- Search in the directory of the given names, innermost first, and in those above it. -/
def nearestFrom {m : Type → Type} [Monad m] (ask : Path → m Status) (name : String) :
    List String → m Nearest
  | [] => lookIn ask name ⟨true, []⟩ (pure .nowhere)
  | inner :: above =>
    lookIn ask name ⟨true, (inner :: above).reverse⟩ (nearestFrom ask name above)

/-- Search in a directory and in those above it. -/
def nearest {m : Type → Type} [Monad m] (ask : Path → m Status) (name : String)
    (directory : Path) : m Nearest :=
  nearestFrom ask name directory.names.reverse

end ShaderIL
