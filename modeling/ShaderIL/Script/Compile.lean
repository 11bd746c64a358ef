import ShaderIL.Compile
import ShaderIL.Script.Session

/-!
# Compiling a list of steps

A list of steps can stand for a kernel: the steps are carried out with the open unit as assembler 0,
and the kernel may then state an error of its own.
-/

namespace ShaderIL.Script

/-- What compiling steps shows: the answers of the steps, the fault that ended them, the result. -/
structure Trial where
  answers : List Answer
  fault : Option Fault
  result : Except CompileError Compiled

/-- Compile the kernel that carries out steps and states an error. -/
def compileSteps (o : Options) (steps : Option (List Step)) (stated : Option String)
    (order : Traversal := .ascending) : Trial :=
  match steps with
  | none => ⟨[], none, .error .absentKernel⟩
  | some steps =>
    match o.assembler.begin with
    | .error e => ⟨[], none, .error (.unit (.single e))⟩
    | .ok opened =>
      let (answers, fault, s) := Session.run { assemblers := #[opened] } steps
      let closing := (s.assemblers[0]?).getD opened
      ⟨answers, fault, closing.conclude (stated.map .stated) order⟩

end ShaderIL.Script
