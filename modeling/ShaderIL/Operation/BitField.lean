import ShaderIL.Operation.Overload

/-!
# Bit fields

Alignment, insertion and extraction of bit fields in integer operands.
-/

namespace ShaderIL

namespace Overload

/-- Two equal integer operands and a third one of as many single lanes. -/
def alignable (a b c : ValueType) : Bool :=
  a == b && a.kind.isInteger && c.laneWidth == a.laneWidth && c.components == a.components

/-- An instruction that works one component at a time. -/
def align (op : TernaryOp) (mnemonic : Mnemonic) (a b c : ValueType) : Option Overload :=
  if alignable a b c then
    some { op := .ternary op, args := [a, b, c], result := a, single := a.components == 1,
           body := (List.range a.components).map fun i => .perComponent mnemonic 3 i }
  else none

/-- Insert a bit field. -/
def bitInsert (a b c : ValueType) : Option Overload :=
  if alignable a b c then
    some { op := .ternary .bitInsert, args := [a, b, c], result := a,
           body := [.direct .bitInsert 3] }
  else none

/-- Extract a bit field; offset and width are unsigned. -/
def bitExtract (source offset width : ValueType) : Option Overload :=
  let extract (mnemonic : Mnemonic) : Overload :=
    { op := .ternary .bitExtract, args := [source, offset, width], result := source,
      body := [.direct mnemonic 3] }
  if offset == width && offset.kind == .uint && source.components == offset.components then
    match source.kind with
    | .uint => some (extract .ubitExtract)
    | .int => some (extract .ibitExtract)
    | _ => none
  else none

end Overload

end ShaderIL
