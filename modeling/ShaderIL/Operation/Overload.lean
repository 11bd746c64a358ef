import ShaderIL.Operation.Opcode
import ShaderIL.Operation.Pattern

/-!
# Overloads

An `Overload` is an operation at fixed operand types: its result type, the scratch registers it
needs and the lines it emits. If `splat` is set, operands of one component are first repeated to the
width of the result. `single` marks the overloads that are one instruction reading all of its
sources before it writes, so that the destination may be one of the sources.
-/

namespace ShaderIL

/-- An operation at fixed operand types. -/
structure Overload where
  op : Opcode
  args : List ValueType
  result : ValueType
  scratch : Nat := 0
  single : Bool := true
  splat : Bool := false
  body : List Pattern
  deriving DecidableEq

namespace Overload

/-- The operation with its operand types and its result type. -/
def text (f : Overload) : String := f.op.signature f.args ++ " " ++ f.result.text

/-- Repeat an operand of one component to the width of the result. -/
def widenOperand (f : Overload) (arg : ValueType) (o : Operand) : Except Fault Operand :=
  if arg.components == 1 && 1 < f.result.components then o.splat f.result.components else .ok o

/-- Widen the sources one by one; each needs an operand type. -/
def widenSources (f : Overload) : List ValueType → List Operand → Except Fault (List Operand)
  | _, [] => .ok []
  | [], _ :: _ => .error .operandRange
  | t :: ts, o :: os => do return (← f.widenOperand t o) :: (← f.widenSources ts os)

/-- The instructions of an overload on given operands. -/
def emit (f : Overload) (result : Operand) (sources scratch : List Operand) :
    Except Fault (List Instruction) := do
  let sources ← if f.splat then f.widenSources f.args sources else .ok sources
  f.body.mapM fun p => p.instantiate ⟨result, sources, scratch⟩

end Overload

end ShaderIL
