import ShaderIL.Operation.Arithmetic

/-!
# Bitwise operations, shifts and comparisons

Comparisons give a boolean of the operands' width. There are instructions for four relations; the
other two swap their operands. A comparison of doubles gives one lane for each pair of lanes, so it
is kept to scalars.
-/

namespace ShaderIL

namespace Mnemonic

/-- One mnemonic for integers and booleans. -/
def bitwise (m : Mnemonic) : Kind → Option Mnemonic
  | .int | .uint | .bool => some m
  | _ => none

/-- A mnemonic for each kind that can be compared for equality. -/
def equality (float double other : Mnemonic) : Kind → Option Mnemonic
  | .float => some float
  | .double => some double
  | .int | .uint | .bool => some other
  | _ => none

end Mnemonic

namespace Overload

/-- One operand, one instruction, a given result type. -/
def unaryDirect (op : Opcode) (arg result : ValueType) (mnemonic : Mnemonic) : Overload :=
  { op, args := [arg], result, body := [.direct mnemonic 1] }

/-- Shift the first operand by the second, an integer of its width or a scalar one. -/
def shift (op : BinaryOp) (signed unsigned : Mnemonic) (value amount : ValueType) :
    Option Overload :=
  let mnemonic := match value.kind with
    | .int => some signed
    | .uint => some unsigned
    | _ => none
  match mnemonic with
  | some mnemonic =>
    if amount.kind.isInteger &&
        (amount.components == 1 || amount.components == value.components) then
      some { op := .binary op, args := [value, amount], result := value, splat := true,
             body := [.direct mnemonic 2] }
    else none
  | none => none

/-- Compare two operands, with their order reversed if `swap` is set. -/
def compare (op : BinaryOp) (table : Kind → Option Mnemonic) (swap : Bool) (a b : ValueType) :
    Option Overload := do
  let common ← a.widen b
  let mnemonic ← table common.kind
  if common.kind == .double && common.components != 1 then none
  else
    let sources : List PatternSource :=
      if swap then [.whole (.source 1) .plain, .whole (.source 0) .plain]
      else [.whole (.source 0) .plain, .whole (.source 1) .plain]
    return { op := .binary op, args := [a, b], result := common.withKind .bool, splat := true,
             body := [⟨mnemonic, .result, sources⟩] }

end Overload

end ShaderIL
