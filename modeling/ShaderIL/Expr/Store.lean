import ShaderIL.Expr.Build
import ShaderIL.Expr.Emit
import ShaderIL.Expr.Validate

/-!
# Assignment

An `LValue` is what a value can be assigned to: a variable, lanes of a variable, or an element of
the global buffer. A value is assigned if its type is the destination's, or if it is a scalar of the
same kind, which is then repeated. An operation that is one instruction writes straight to a
variable of its result type; otherwise the value is computed first and then moved.
-/

namespace ShaderIL

/-- Where a value can be assigned. -/
inductive LValue where
  | var (v : Variable)
  | view (v : Variable) (mask : String)
  | element (type : ValueType) (address : Address)

namespace LValue

/-- The destination as an expression. -/
def toExpr : LValue → Expr
  | var v => .var v
  | view v mask => .view v mask
  | element t a => a.element t

/-- The destination that an expression denotes. -/
def ofExpr? : Expr → Option LValue
  | .var v => some (.var v)
  | .view v mask => some (.view v mask)
  | .element t b offset => some (.element t ⟨some b, offset⟩)
  | .elementAt t offset => some (.element t ⟨none, offset⟩)
  | _ => none

/-- The type a destination holds. -/
def type (d : LValue) : ValueType := d.toExpr.type

/-- A value of the source type can be assigned to the target type. -/
def accepts (target source : ValueType) : Bool :=
  target == source || (source.components == 1 && source.kind == target.kind)

/-- The errors of an assignment in a unit; the types are compared once both sides are sound. -/
def assignErrors (unit : UnitId) (dst : Option LValue) (e : Expr) : List Error :=
  match dst with
  | none => [.absentTarget]
  | some d =>
    let errors := d.toExpr.errors (some unit) ++ e.errors (some unit)
    if !errors.isEmpty then errors
    else if accepts d.type e.type then []
    else [.assignTypes e.type d.type]

end LValue

/-- Move a value to a destination; a scalar is repeated to the destination's width. -/
def emitMove (dst value : Operand) : Emit Unit := do
  let value ←
    if value.components == 1 && 1 < dst.components then value.splat dst.components else pure value
  Draft.writeAll [⟨.mov, dst.destination, [value.alignedTo dst]⟩]

/-- The overload of an operation that can write straight to a destination of type `t`. -/
def Expr.direct? (e : Expr) (t : ValueType) : Option Overload :=
  e.overload?.filter fun f => f.single && f.result == t

/-- Compute an expression into an operand, directly if an overload for that is given. -/
def emitTo (target : Target) (dst : Operand) (direct : Option Overload) (e : Expr) : Emit Unit :=
  match direct with
  | some f => do
    let args ← Expr.emitAll target e.operands
    f.emitInto dst args
  | none => do
    let value ← e.emit target
    emitMove dst value

namespace LValue

/-- Append the code of an assignment. -/
def store (target : Target) (e : Expr) : LValue → Emit Unit
  | var v => do
    let dst ← v.operand
    emitTo target dst (e.direct? v.declared) e
  | view v mask => do
    let lanes ← orFault (v.viewLanes mask)
    let dst ← v.viewOperand mask
    emitTo target dst (if lanes.isIdentity then e.direct? (v.viewType mask) else none) e
  | element t a => do
    let value ← e.emit target
    Draft.useGlobal
    let dst ← match a.base with
      | none => pure (elementAtOperand t a.offset)
      | some b => do
        let base ← b.emit target
        pure (elementOperand t base a.offset)
    emitMove dst value

end LValue

end ShaderIL
