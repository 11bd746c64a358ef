import ShaderIL.Literal
import ShaderIL.Operand
import ShaderIL.Operation.Table

/-!
# Expressions

An `Expr` is a tree of operations over leaves: literals, variables and lanes of variables, named
operands, constant-buffer fields, samples of inputs, elements of the global buffer and the position
of the work item. Building a tree never fails. A node that makes no sense has the type
`ValueType.invalid`, and `Expr.type` is decided by the tree alone: an operation has the result type
of its overload, a node with an error of its own, or over an untyped operand, has none.

The functions `…Error` give the error a node adds to those of its operands. An operation whose
operands are not all typed adds none, as the operand reports its own.
-/

namespace ShaderIL

/-- A compilation unit: the assembler it belongs to and its number there. -/
structure UnitId where
  assembler : Nat
  generation : Nat
  deriving DecidableEq, Repr

/-- The register of a variable and the unit that owns it. -/
structure Home where
  unit : UnitId
  register : Nat
  deriving DecidableEq, Repr

/-- A variable. It has no home if it was declared where no unit could take it. -/
structure Variable where
  declared : ValueType
  home : Option Home
  deriving DecidableEq, Repr

/-- A two-dimensional input that is read by sampling. -/
structure Input where
  slot : Int
  type : ValueType
  deriving DecidableEq, Repr

/-- Lanes of an element of a constant buffer, all of the leading ones if `lanes` is left out. -/
structure BufferField where
  slot : Int
  size : Int
  index : Int
  type : ValueType
  lanes : Option String
  deriving DecidableEq, Repr

/-- An expression. -/
inductive Expr where
  /-- No expression where one was expected. -/
  | absent
  | unary (op : UnaryOp) (x : Expr)
  | convert (op : Conversion) (target : ValueType) (x : Expr)
  | binary (op : BinaryOp) (x y : Expr)
  | ternary (op : TernaryOp) (x y z : Expr)
  /-- The components of `x` that a pattern names. -/
  | select (x : Expr) (pattern : Swizzle)
  /-- A selection whose pattern could not be read. -/
  | unselected (x : Expr) (cause : Error)
  | literal (l : Literal)
  /-- An operand given by its text. -/
  | external (type : ValueType) (text : String)
  | field (f : BufferField)
  | var (v : Variable)
  /-- The lanes of a variable that a mask names. -/
  | view (v : Variable) (mask : String)
  | sample (input : Input) (coord : Expr)
  /-- The element of the global buffer at an offset from a base. -/
  | element (type : ValueType) (base : Expr) (offset : Int64)
  /-- The element of the global buffer at a fixed offset. -/
  | elementAt (type : ValueType) (offset : Int64)
  /-- The position of the work item. -/
  | position (type : ValueType)
  deriving DecidableEq

/-! ### Leaves -/

namespace Variable

/-- The type of a variable. -/
def type (v : Variable) : ValueType := if v.declared.valid then v.declared else .invalid

/-- The name of a variable's register, empty if it has none. -/
def register (v : Variable) : String := (v.home.map fun h => (Place.temp h.register).text).getD ""

/-- The errors of a mention of a variable in a unit, or anywhere if no unit is given. -/
def errors (unit : Option UnitId) (v : Variable) : List Error :=
  if !v.declared.valid then [.variableType]
  else
    match v.home with
    | none => [.variableHomeless v.declared]
    | some h =>
      if unit.any (· != h.unit) then [.variableForeign v.declared v.register] else []

/-- The lanes of a variable that a mask names. -/
def viewLanes (v : Variable) (mask : String) : Except Error Swizzle := do
  let s := (← WriteMask.parse mask).swizzle
  if v.declared.valid && v.declared.components ≤ s.maxLane then
    .error (.lanesBeyond mask v.declared)
  else .ok s

/-- The type of the lanes of a variable that a mask names. -/
def viewType (v : Variable) (mask : String) : ValueType :=
  match v.viewLanes mask with
  | .error _ => .invalid
  | .ok s => if v.type.valid then .vector v.type.kind s.count else .invalid

/-- The error of a mask. -/
def viewError (v : Variable) (mask : String) : Option Error :=
  match v.viewLanes mask with
  | .error e => some e
  | .ok _ => none

end Variable

namespace Input

/-- An input has a slot that is not negative and holds anything but booleans. -/
def error (i : Input) : Option Error :=
  if i.slot < 0 then some (.inputSlot i.slot)
  else if !i.type.valid || i.type.kind == .bool then some (.inputType i.slot i.type)
  else none

end Input

/-- The operand a text names at a type, at a place found from the name. -/
def externalOperand (place : String → Place) (t : ValueType) (text : String) :
    Except Error Operand :=
  if t.valid then Operand.ofText place text t else .error (.externalType text)

namespace BufferField

/-- The place of the element. -/
def place (f : BufferField) : Place := .constant f.slot f.index

/-- The text of the field. -/
def text (f : BufferField) : String :=
  f.place.text ++ (match f.lanes with
    | some lanes => "." ++ lanes
    | none => "")

/-- The place a name stands for, the element itself if it is the element's name. -/
def placeOf (f : BufferField) (name : String) : Place :=
  if name == f.place.text then f.place else .named name

/-- The operand of the field. The buffer must have a slot and a size, the element must lie in it,
and the lanes must suit the type. -/
def operand (f : BufferField) : Except Error Operand :=
  if f.slot < 0 || f.size ≤ 0 then .error (.bufferShape f.slot f.size)
  else if f.index < 0 || f.size ≤ f.index then .error (.elementRange f.index f.slot f.size)
  else externalOperand f.placeOf f.type f.text

end BufferField

/-- The error of a value that is either given or refused. -/
def errorOf {α : Type} : Except Error α → Option Error
  | .error e => some e
  | .ok _ => none

/-- The position has one or two integer or single-precision components. -/
def positionError (t : ValueType) : Option Error :=
  if 2 < t.components || t.kind == .bool || t.kind == .double || !t.valid then
    some (.positionType t)
  else none

/-- The global buffer holds elements of any valid type. -/
def globalError (t : ValueType) : Option Error := if t.valid then none else some .globalType

/-! ### Types -/

/-- A pattern must stay inside the components it selects from and yield a valid type. -/
def selectError (t : ValueType) (p : Swizzle) : Option Error :=
  if !t.valid then none
  else if t.components ≤ p.maxLane then some (.patternBeyond p.text t)
  else if !(ValueType.vector t.kind p.count).valid then some (.patternWidth p.text t p.count)
  else none

/-- A sample is taken at two single-precision coordinates. -/
def coordinateError (t : ValueType) : Option Error :=
  if t.valid && t != .float2 then some (.coordinateType t) else none

/-- The base of an address is a scalar number; an untyped base reports its own error. -/
def addressTypeError (t : ValueType) : Option Error :=
  if t == .int1 || t == .uint1 || t == .float1 || t == .invalid then none
  else some (.addressType t)

/-- The result type of an overload, if there is one. -/
def resultType (f : Option Overload) : ValueType := (f.map Overload.result).getD .invalid

namespace Expr

/-- There is an expression. -/
def isPresent : Expr → Bool
  | absent => false
  | _ => true

/-- The error of a base of an address of the given type. -/
def addressError (base : Expr) (t : ValueType) : Option Error :=
  if base.isPresent then addressTypeError t else some .absentAddress

/-- The type of an expression, `invalid` if it has none. -/
def type : Expr → ValueType
  | absent | unselected _ _ => .invalid
  | unary op x => resultType (op.overload? x.type)
  | convert op t x => resultType (op.overload? t x.type)
  | binary op x y => resultType (op.overload? x.type y.type)
  | ternary op x y z => resultType (op.overload? x.type y.type z.type)
  | select x p =>
    let t := x.type
    if (selectError t p).isSome || !t.valid then .invalid else .vector t.kind p.count
  | literal l => l.type
  | external t text => if (errorOf (externalOperand .named t text)).isSome then .invalid else t
  | field f => if (errorOf f.operand).isSome then .invalid else f.type
  | var v => v.type
  | view v mask => v.viewType mask
  | sample i c =>
    if i.error.isSome || (coordinateError c.type).isSome then .invalid else i.type
  | element t b _ =>
    if (globalError t).isSome || (b.addressError b.type).isSome then .invalid else t
  | elementAt t _ => if (globalError t).isSome then .invalid else t
  | position t => if (positionError t).isSome then .invalid else t

/-- The overload of an operation node. -/
def overload? : Expr → Option Overload
  | unary op x => op.overload? x.type
  | convert op t x => op.overload? t x.type
  | binary op x y => op.overload? x.type y.type
  | ternary op x y z => op.overload? x.type y.type z.type
  | _ => none

/-- The operands of an operation node in order. -/
def operands : Expr → List Expr
  | unary _ x | convert _ _ x => [x]
  | binary _ x y => [x, y]
  | ternary _ x y z => [x, y, z]
  | _ => []

end Expr

end ShaderIL
