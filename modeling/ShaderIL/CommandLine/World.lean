import ShaderIL.CommandLine.Run
import ShaderIL.Files.Tree

/-!
# Commands on a file tree

A `World` is a file tree with a working directory, and what was written to the two outputs. Commands
run in the state monad over worlds, so that their effects are values. The text of an elapsed time is
fixed for a world.
-/

namespace ShaderIL

/-- What a command finds and leaves behind. -/
structure World where
  tree : FileTree := {}
  directory : Path := ⟨true, []⟩
  cacheHome : String := "/.cache"
  processors : Nat := 1
  terminal : Bool := false
  elapsed : String := "0s"
  out : String := ""
  err : String := ""

namespace World

/-- Change the tree unless the change is refused. -/
def changing (f : World → Except FileError FileTree) : StateM World (Except FileError Unit) := do
  let w ← get
  match f w with
  | .error e => return .error e
  | .ok tree =>
    set { w with tree }
    return .ok ()

instance : Shell (StateM World) where
  workingDirectory := return (← get).directory.text
  cacheHome := return .ok (← get).cacheHome
  processors := return (← get).processors
  terminal := return (← get).terminal
  now := return 0
  elapsed _ := return (← get).elapsed
  print text := modify fun w => { w with out := w.out ++ text }
  printError text := modify fun w => { w with err := w.err ++ text }
  status path := return (← get).tree.status (← get).directory path
  readFile path := return (← get).tree.read (← get).directory path
  writeFile path contents := changing fun w => w.tree.write w.directory path contents
  makeDirectories path := changing fun w => w.tree.makeDirectories w.directory path

/-- The exit code and the outputs of a call. -/
structure Result where
  code : Nat
  out : String
  err : String
  deriving DecidableEq, Repr

/-- Carry out a call. -/
def call (w : World) (words : List String) : Result × World :=
  let (code, w) := (runWords words : StateM World Nat).run { w with out := "", err := "" }
  (⟨code, w.out, w.err⟩, w)

/-- Carry out calls one after the other. -/
def callAll (w : World) : List (List String) → List Result × World
  | [] => ([], w)
  | words :: rest =>
    let (r, w) := w.call words
    let (rs, w) := w.callAll rest
    (r :: rs, w)

end World

end ShaderIL
