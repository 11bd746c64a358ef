import ShaderIL.Operation.Overload

/-!
# Arithmetic

Operands of one kind and either equal widths or one of them scalar: `widen` gives the common type.
Sums, products, quotients, minima and maxima are single instructions. Integer sources take no negate
modifier, so an integer difference negates its second operand into a scratch register first; the
single-precision remainder is computed as `a - b * floor (a / b)`.
-/

namespace ShaderIL

/-- The common type of two operands of one kind, the wider of the two. -/
def ValueType.widen (a b : ValueType) : Option ValueType :=
  if a.kind != b.kind then none
  else if a.components == b.components then some a
  else if a.components == 1 then some b
  else if b.components == 1 then some a
  else none

namespace Mnemonic

/-- A mnemonic per numeric kind. -/
def numeric (float double int uint : Mnemonic) : Kind → Option Mnemonic
  | .float => some float
  | .double => some double
  | .int => some int
  | .uint => some uint
  | _ => none

end Mnemonic

namespace Overload

/-- Two operands widened to a common type, one instruction chosen by the kind. -/
def lanewise (op : BinaryOp) (table : Kind → Option Mnemonic) (a b : ValueType) :
    Option Overload := do
  let result ← a.widen b
  let mnemonic ← table result.kind
  return { op := .binary op, args := [a, b], result, splat := true,
           body := [.direct mnemonic 2] }

/-- The difference of two operands. -/
def difference (a b : ValueType) : Option Overload := do
  let result ← a.widen b
  let base : Overload :=
    { op := .binary .sub, args := [a, b], result, splat := true, body := [] }
  match result.kind with
  | .float => return { base with body := [.direct .sub 2] }
  | .double =>
    return { base with
      body := [⟨.dadd, .result,
        [.whole (.source 0) .plain, .whole (.source 1) .highNegated]⟩] }
  | .int | .uint =>
    return { base with
      scratch := 1, single := false,
      body := [⟨.inegate, .scratch 0, [.whole (.source 1) .plain]⟩,
        ⟨.iadd, .result, [.whole (.source 0) .plain, .whole (.scratch 0) .plain]⟩] }
  | _ => none

/-- The remainder of two operands. -/
def remainder (a b : ValueType) : Option Overload := do
  let result ← a.widen b
  let base : Overload :=
    { op := .binary .mod, args := [a, b], result, splat := true, body := [] }
  match result.kind with
  | .float =>
    return { base with
      scratch := 1, single := false,
      body := [⟨.div, .scratch 0, [.whole (.source 0) .plain, .whole (.source 1) .plain]⟩,
        ⟨.floor, .scratch 0, [.whole (.scratch 0) .plain]⟩,
        ⟨.mad, .result, [.whole (.scratch 0) .negated, .whole (.source 1) .plain,
          .whole (.source 0) .plain]⟩] }
  | .int => return { base with body := [.direct .imod 2] }
  | .uint => return { base with body := [.direct .umod 2] }
  | _ => none

/-- The product of the first two operands plus the third. -/
def multiplyAdd (a b c : ValueType) : Option Overload := do
  let result ← (← a.widen b).widen c
  let mnemonic ← Mnemonic.numeric .mad .dmad .imad .umad result.kind
  return { op := .ternary .mad, args := [a, b, c], result, splat := true,
           body := [.direct mnemonic 3] }

/-- The second or the third operand, lane by lane as the first one says. -/
def choice (cond a b : ValueType) : Option Overload := do
  let result ← a.widen b
  if cond.kind == .bool && result.kind != .double &&
      (cond.components == 1 || cond.components == result.components) then
    return { op := .ternary .select, args := [cond, a, b], result, splat := true,
             body := [.direct .cmov 3] }
  else none

end Overload

end ShaderIL
