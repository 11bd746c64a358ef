import ShaderIL.Expr.Basic

/-!
# Validation

`Expr.errors` collects the errors of a tree, those of the operands of a node from left to right
before the node's own. Variables are checked against the unit in which the tree is to be used, if
one is given. A tree is accepted when the list is empty.
-/

namespace ShaderIL

/-- An operation over typed operands must have an overload. -/
def overloadError (op : Opcode) (args : List ValueType) (f : Option Overload) : Option Error :=
  if args.all ValueType.valid && f.isNone then some (.noOverload op args) else none

namespace Expr

/-- A conversion of a typed operand must have an overload. -/
def conversionError (op : Conversion) (target source : ValueType) : Option Error :=
  if source.valid && (op.overload? target source).isNone then
    some (.noConversion (.convert op) source target)
  else none

/-- The errors of an expression used in a unit. -/
def errors (unit : Option UnitId) : Expr → List Error
  | absent => [.absentExpression]
  | unary op x =>
    x.errors unit ++ (overloadError (.unary op) [x.type] (op.overload? x.type)).toList
  | convert op t x => x.errors unit ++ (conversionError op t x.type).toList
  | binary op x y =>
    x.errors unit ++ y.errors unit ++
      (overloadError (.binary op) [x.type, y.type] (op.overload? x.type y.type)).toList
  | ternary op x y z =>
    x.errors unit ++ y.errors unit ++ z.errors unit ++
      (overloadError (.ternary op) [x.type, y.type, z.type]
        (op.overload? x.type y.type z.type)).toList
  | select x p => x.errors unit ++ (selectError x.type p).toList
  | unselected x cause => x.errors unit ++ [cause]
  | literal l => l.error.toList
  | external t text => (errorOf (externalOperand .named t text)).toList
  | field f => (errorOf f.operand).toList
  | var v => v.errors unit
  | view v mask => v.errors unit ++ (v.viewError mask).toList
  | sample i c => i.error.toList ++ c.errors unit ++ (coordinateError c.type).toList
  | element t b _ =>
    (globalError t).toList ++ (match b.addressError b.type with
      | some e => [e]
      | none => b.errors unit)
  | elementAt t _ => (globalError t).toList
  | position t => (positionError t).toList

end Expr

end ShaderIL
