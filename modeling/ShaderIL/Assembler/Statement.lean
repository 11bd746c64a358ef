import ShaderIL.Assembler.Basic

/-!
# Statements as data

`Statement` lists what can be said to an assembler between `begin` and `finish`; `Assembler.exec`
carries one out and returns what it yields, `Assembler.execAll` a sequence of them.
-/

namespace ShaderIL

/-- A statement of a compilation unit. -/
inductive Statement where
  | declare (type : ValueType)
  | eval (e : Expr)
  | assign (dst : Option LValue) (e : Expr)
  | comment (text : String)
  | whileLoop
  | endLoop
  | breakIf (cond : Expr)
  | breakLoop
  | continueLoop
  | ifTrue (cond : Expr)
  | elseBranch
  | endIf

/-- What a statement yields. -/
inductive Outcome where
  | done
  | declared (v : Variable)
  | value (result : Except Report Operand)

namespace Assembler

/-- Carry out a statement. -/
def exec (s : Assembler) : Statement → Except Fault (Outcome × Assembler)
  | .declare t =>
    let (v, s) := s.declare t
    .ok (.declared v, s)
  | .eval e => do
    let (r, s) ← s.eval e
    return (.value r, s)
  | .assign dst e => return (.done, ← s.assign dst e)
  | .comment text => return (.done, ← s.comment text)
  | .whileLoop => return (.done, ← s.whileLoop)
  | .endLoop => return (.done, ← s.endLoop)
  | .breakIf cond => return (.done, ← s.breakIf cond)
  | .breakLoop => return (.done, ← s.breakLoop)
  | .continueLoop => return (.done, ← s.continueLoop)
  | .ifTrue cond => return (.done, ← s.ifTrue cond)
  | .elseBranch => return (.done, ← s.elseBranch)
  | .endIf => return (.done, ← s.endIf)

/-- Carry out statements in order. -/
def execAll (s : Assembler) : List Statement → Except Fault (List Outcome × Assembler)
  | [] => .ok ([], s)
  | st :: rest => do
    let (o, s) ← s.exec st
    let (os, s) ← s.execAll rest
    return (o :: os, s)

end Assembler

end ShaderIL
