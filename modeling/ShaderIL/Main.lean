import ShaderIL.Cache.Codec
import ShaderIL.CommandLine.Duration
import ShaderIL.CommandLine.Run

/-!
# The program

The command line on real files.
-/

namespace ShaderIL

/-- The cause of a failed operation of the machine. -/
def FileCause.ofError : IO.Error → FileCause
  | .noFileOrDirectory .. => .notFound
  | .inappropriateType _ 20 _ => .notDirectory
  | .inappropriateType _ 21 _ => .isDirectory
  | .invalidArgument .. => .invalid
  | e => .other (toString e)

/-- The outcome of an operation on a path. -/
def attempt {α : Type} (operation path : String) (act : IO α) : IO (Except FileError α) := do
  try
    return .ok (← act)
  catch e =>
    return .error ⟨operation, path, .ofError e⟩

instance : Shell IO where
  workingDirectory := return (← IO.currentDir).toString
  cacheHome := do
    match ← IO.getEnv "XDG_CACHE_HOME", ← IO.getEnv "HOME" with
    | some base, home =>
      if base.isEmpty then
        match home with
        | some home => return .ok (home ++ "/.cache")
        | none => return .error "$HOME is not defined"
      else return .ok base
    | none, some home => return .ok (home ++ "/.cache")
    | none, none => return .error "$HOME is not defined"
  processors := return 1
  terminal := do (← IO.getStderr).isTty
  now := IO.monoNanosNow
  elapsed since := return durationText (((← IO.monoNanosNow) - since + 500) / 1000)
  print text := IO.print text
  printError text := IO.eprint text
  status path := do
    match ← attempt "stat" path ((← IO.currentDir) / path).metadata with
    | .ok _ => return .present
    | .error ⟨_, _, .notFound⟩ => return .missing
    | .error e => return .failed e.cause
  readFile path := do
    match ← attempt "open" path (IO.FS.readFile path) with
    | .ok text => return .ok (.ofText text)
    | .error e => return .error e
  writeFile path contents := attempt "open" path (IO.FS.writeFile path contents.toText)
  makeDirectories path := attempt "mkdir" path (IO.FS.createDirAll path)

end ShaderIL

/-- Carry out a call. -/
def main (words : List String) : IO UInt32 := do
  return UInt32.ofNat (← ShaderIL.runWords words)
