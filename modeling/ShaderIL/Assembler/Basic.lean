import ShaderIL.Assembler.Phase
import ShaderIL.Expr.Store

/-!
# Assemblers

An `Assembler` builds one compilation unit after the other. `begin` opens a unit with an empty
draft, statements add to it, `finish` closes it. The first error of a unit is kept in `report`, and
from then on statements change nothing until the next `begin`. A statement outside a unit records an
error too.

Units are told apart by the assembler's number and a generation that grows with every `begin`, so a
variable of an earlier unit, or of another assembler, is recognised.

The resources of a unit are checked when it is closed, in an order that is not the unit's to choose: it
is given to `finish` as a `Traversal`. Where several resources exceed the device, the order decides
which of them is reported.
-/

namespace ShaderIL

/-- An open flow block. -/
inductive Block where
  | loop
  | ifBranch
  | elseBranch
  deriving DecidableEq, Repr

/-- The name of a block in messages. -/
def Block.text : Block → String
  | loop => "whileloop"
  | ifBranch => "if"
  | elseBranch => "else"

/-- The state of an assembler. The innermost open block comes first in `flow`. -/
structure Assembler where
  id : Nat := 0
  target : Target := .pixel
  device : Device := {}
  threads : ThreadGroup := {}
  phase : Phase := .unstarted
  generation : Nat := 0
  report : Option Report := none
  draft : Draft := {}
  flow : List Block := []

/-- An order in which the inputs and the constant buffers of a unit are visited: some rearrangement of
each table. -/
structure Traversal where
  inputs : List (Int × ValueType) → List (Int × ValueType)
  buffers : List (Int × Int) → List (Int × Int)
  inputs_perm : ∀ entries, (inputs entries).Perm entries
  buffers_perm : ∀ entries, (buffers entries).Perm entries

/-- The slots in ascending order. -/
def Traversal.ascending : Traversal := ⟨id, id, fun _ => .rfl, fun _ => .rfl⟩

namespace Assembler

/-- The current unit. -/
def unit (s : Assembler) : UnitId := ⟨s.id, s.generation⟩

/-- The number of registers taken. -/
def registers (s : Assembler) : Nat := s.draft.next

/-- The number of instructions written. -/
def instructions (s : Assembler) : Nat := s.draft.instructions

/-- The number of literals declared. -/
def literals (s : Assembler) : Nat := s.draft.literals.order.length

/-- Record an error unless there is one already. -/
def fail (s : Assembler) (r : Report) : Assembler :=
  if s.report.isNone then { s with report := some r } else s

/-- Record a single error unless there is one already. -/
def failWith (s : Assembler) (e : Error) : Assembler := s.fail (.single e)

/-- Record a list of errors, if it has any, unless there is an error already. -/
def failAll (s : Assembler) (es : List Error) : Assembler := s.fail (.several es)

/-- Run a statement inside a unit without errors. Outside a unit the statement is recorded as an
error, after an error it is skipped. -/
def guarded (s : Assembler) (statement : String) (run : Assembler → Except Fault Assembler) :
    Except Fault Assembler :=
  if s.phase != .building then .ok (s.failWith (.wrongPhase statement s.phase))
  else if s.report.isSome then .ok s
  else run s

/-- Run an emission on the draft. The draft is taken out of the state meanwhile, so that it is
extended in place. -/
def emitting {α : Type} (s : Assembler) (m : Emit α) : Except Fault (α × Assembler) :=
  let draft := s.draft
  let s := { s with draft := {} }
  match m.run draft with
  | .error f => .error f
  | .ok (a, draft) => .ok (a, { s with draft })

/-! ### Units -/

/-- Open a unit. -/
def begin (s : Assembler) : Except Error Assembler :=
  if s.phase == .building then .error .alreadyBuilding
  else
    .ok { s with
      phase := .building, generation := s.generation + 1, report := none, draft := {}, flow := [] }

/-- The errors of the inputs against the device. -/
def inputErrors (s : Assembler) (order : Traversal) : List Error :=
  (order.inputs s.draft.inputs.entries).filterMap fun (slot, _) =>
    if s.device.maxInputs ≤ slot then some (.inputLimit slot s.device.maxInputs) else none

/-- The errors of the constant buffers against the device, slot before size. -/
def bufferErrors (s : Assembler) (order : Traversal) : List Error :=
  (order.buffers s.draft.buffers.entries).flatMap fun (slot, size) =>
    (if s.device.maxBuffers ≤ slot then [.bufferLimit slot s.device.maxBuffers] else []) ++
    (if s.device.maxBufferSize < size then
      [.bufferSizeLimit slot size s.device.maxBufferSize] else [])

/-- The error of blocks left open. -/
def openBlockErrors (s : Assembler) : List Error :=
  match s.flow with
  | [] => []
  | b :: _ => [.unterminated s.flow.length b.text]

/-- The errors found when a unit is closed, in the order in which they are recorded. -/
def closingErrors (s : Assembler) (order : Traversal) : List Error :=
  s.openBlockErrors ++ s.inputErrors order ++ s.bufferErrors order

/-- Close the unit: blocks must be closed and resources within the device's limits. -/
def finish (s : Assembler) (order : Traversal := .ascending) : Except Error Assembler :=
  if s.phase != .building then .error (.notBuilding s.phase)
  else .ok { (s.closingErrors order).foldl failWith s with phase := .finalized }

/-! ### Statements -/

/-- Declare a variable. It gets the next register inside a unit without errors. -/
def declare (s : Assembler) (t : ValueType) : Variable × Assembler :=
  if !t.valid then (⟨t, none⟩, s.failWith .variableType)
  else if s.phase != .building then (⟨t, none⟩, s.failWith (.wrongPhase "var" s.phase))
  else if s.report.isSome then (⟨t, none⟩, s)
  else
    (⟨t, some ⟨s.unit, s.draft.next⟩⟩,
      { s with draft := { s.draft with next := s.draft.next + 1 } })

/-- Evaluate an expression for its operand. -/
def eval (s : Assembler) (e : Expr) : Except Fault (Except Report Operand × Assembler) :=
  if s.phase != .building then
    let s := s.failWith (.wrongPhase "eval" s.phase)
    .ok (.error (s.report.getD (.single (.wrongPhase "eval" s.phase))), s)
  else
    match s.report with
    | some r => .ok (.error r, s)
    | none =>
      let errors := e.errors (some s.unit)
      if errors.isEmpty then do
        let (o, s) ← s.emitting (e.emit s.target)
        return (.ok o, s)
      else .ok (.error (.several errors), s.failAll errors)

/-- Assign an expression. -/
def assign (s : Assembler) (dst : Option LValue) (e : Expr) : Except Fault Assembler :=
  s.guarded "assign" fun s =>
    let errors := LValue.assignErrors s.unit dst e
    match dst with
    | some d =>
      if errors.isEmpty then do
        let ((), s) ← s.emitting (d.store s.target e)
        return s
      else .ok (s.failAll errors)
    | none => .ok (s.failAll errors)

/-- Write a line of code. -/
def writeLine (s : Assembler) (l : Line) : Assembler := { s with draft := s.draft.written [l] }

/-- Write a comment. -/
def comment (s : Assembler) (text : String) : Except Fault Assembler :=
  s.guarded "comment" fun s => .ok { s with draft := s.draft.remarked text }

/-! ### Flow -/

/-- Some open block is a loop. -/
def inLoop (s : Assembler) : Bool := s.flow.contains .loop

/-- Check a condition and emit it; without it the error is recorded. -/
def condition (s : Assembler) (test : FlowTest) (cond : Expr) :
    Except Fault (Option Operand × Assembler) :=
  let errors := cond.errors (some s.unit)
  if !errors.isEmpty then .ok (none, s.failAll errors)
  else if cond.type != .bool1 then
    .ok (none, s.failWith (.conditionType test.text cond.type))
  else do
    let (o, s) ← s.emitting (cond.emit s.target)
    return (some o, s)

/-- Open a loop. -/
def whileLoop (s : Assembler) : Except Fault Assembler :=
  s.guarded FlowWord.whileLoop.text fun s =>
    .ok ({ s with flow := .loop :: s.flow }.writeLine (.word .whileLoop))

/-- Close a loop. -/
def endLoop (s : Assembler) : Except Fault Assembler :=
  s.guarded FlowWord.endLoop.text fun s =>
    match s.flow with
    | .loop :: rest => .ok ({ s with flow := rest }.writeLine (.word .endLoop))
    | _ => .ok (s.failWith .strayEndLoop)

/-- Leave the loop, or go to its next round. -/
def jump (s : Assembler) (w : FlowWord) : Except Fault Assembler :=
  s.guarded w.text fun s =>
    if s.inLoop then .ok (s.writeLine (.word w)) else .ok (s.failWith (.outsideLoop w.text))

/-- Leave the innermost loop. -/
def breakLoop (s : Assembler) : Except Fault Assembler := s.jump .breakLoop

/-- Go to the next round of the innermost loop. -/
def continueLoop (s : Assembler) : Except Fault Assembler := s.jump .continueLoop

/-- Leave the innermost loop if a condition holds. -/
def breakIf (s : Assembler) (cond : Expr) : Except Fault Assembler :=
  s.guarded FlowTest.breakTrue.text fun s =>
    if !s.inLoop then .ok (s.failWith (.outsideLoop FlowTest.breakTrue.text))
    else do
      match ← s.condition .breakTrue cond with
      | (some c, s) => return s.writeLine (.test .breakTrue c.source)
      | (none, s) => return s

/-- Open a conditional block. -/
def ifTrue (s : Assembler) (cond : Expr) : Except Fault Assembler :=
  s.guarded FlowTest.ifTrue.text fun s => do
    match ← s.condition .ifTrue cond with
    | (some c, s) =>
      return { s with flow := .ifBranch :: s.flow }.writeLine (.test .ifTrue c.source)
    | (none, s) => return s

/-- Go over to the other branch. -/
def elseBranch (s : Assembler) : Except Fault Assembler :=
  s.guarded FlowWord.elseBranch.text fun s =>
    match s.flow with
    | .ifBranch :: rest =>
      .ok ({ s with flow := .elseBranch :: rest }.writeLine (.word .elseBranch))
    | _ => .ok (s.failWith .strayElse)

/-- Close a conditional block. -/
def endIf (s : Assembler) : Except Fault Assembler :=
  s.guarded FlowWord.endIf.text fun s =>
    match s.flow with
    | .ifBranch :: rest | .elseBranch :: rest =>
      .ok ({ s with flow := rest }.writeLine (.word .endIf))
    | _ => .ok (s.failWith .strayEndIf)

end Assembler

end ShaderIL
