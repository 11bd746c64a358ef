import ShaderIL.Operation.Logic

/-!
# Negation, rounding, roots and dot products
-/

namespace ShaderIL

namespace Overload

/-- The negated operand: a modifier on a move, or the integer instruction. -/
def negation (t : ValueType) : Option Overload :=
  let move (sign : Sign) : Overload :=
    { op := .unary .neg, args := [t], result := t,
      body := [⟨.mov, .result, [.whole (.source 0) sign]⟩] }
  match t.kind with
  | .float => some (move .negated)
  | .double => some (move .highNegated)
  | .int => some (unaryDirect (.unary .neg) t t .inegate)
  | _ => none

/-- One instruction that exists for single precision only. -/
def floatOnly (op : UnaryOp) (mnemonic : Mnemonic) (t : ValueType) : Option Overload :=
  if t.kind == .float then some (unaryDirect (.unary op) t t mnemonic) else none

/-- The dot product of two vectors of two or four floats. -/
def dot (a b : ValueType) : Option Overload :=
  let product (mnemonic : Mnemonic) : Overload :=
    { op := .binary .dot, args := [a, b], result := .float1, body := [.direct mnemonic 2] }
  if a == b && a.kind == .float then
    match a.components with
    | 2 => some (product .dot2)
    | 4 => some (product .dot4)
    | _ => none
  else none

end Overload

end ShaderIL
