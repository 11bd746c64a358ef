import ShaderIL.Expr.Basic

/-!
# Building expressions

The constructors of operation nodes look at the types of their operands from left to right and stop
at the first untyped one; an absent operand they look at is a fault. `Arg` lets a host constant
stand in for an operand: it is lifted to the type of the other operand of a binary operation, to the
widest type among the other operands of a multiply-add, and to the unsigned type of the first
operand's width in a bit-field operation.

`Expr.pick` selects components. A selection from a selection is one selection with the composed
pattern, as long as the inner one is sound and the outer pattern fits it.
-/

namespace ShaderIL

/-- An operand or a host constant in its place. -/
inductive Arg where
  | expr (e : Expr)
  | const (k : Host)

namespace Expr

/-- The type of an expression that has to be there. -/
def knownType (e : Expr) : Except Fault ValueType :=
  if e.isPresent then .ok e.type else .error .absentOperand

/-- Look at operands from left to right up to the first untyped one. -/
def inspect : List Expr → Except Fault Unit
  | [] => .ok ()
  | e :: es => do
    let t ← e.knownType
    if t.valid then inspect es else .ok ()

/-- A unary operation. -/
def mkUnary (op : UnaryOp) (x : Expr) : Except Fault Expr := do
  inspect [x]
  return .unary op x

/-- A conversion. -/
def mkConvert (op : Conversion) (target : ValueType) (x : Expr) : Except Fault Expr := do
  inspect [x]
  return .convert op target x

/-- A binary operation. -/
def mkBinary (op : BinaryOp) (x y : Expr) : Except Fault Expr := do
  inspect [x, y]
  return .binary op x y

/-- A ternary operation. -/
def mkTernary (op : TernaryOp) (x y z : Expr) : Except Fault Expr := do
  inspect [x, y, z]
  return .ternary op x y z

/-! ### Host constants as operands -/

/-- An operand, with a constant lifted to a type. -/
def ofArg (like : ValueType) : Arg → Expr
  | .expr e => e
  | .const k => .literal (Literal.lift k like)

/-- A binary operation with a constant on the right. -/
def binaryConst (op : BinaryOp) (x : Expr) (k : Host) : Except Fault Expr := do
  mkBinary op x (ofArg (← x.knownType) (.const k))

/-- A binary operation with a constant on the left. -/
def constBinary (op : BinaryOp) (k : Host) (x : Expr) : Except Fault Expr := do
  mkBinary op (ofArg (← x.knownType) (.const k)) x

/-- The type with the most components, the first of several; none if an operand is untyped. -/
def widestFrom (widest : ValueType) : List Expr → Except Fault ValueType
  | [] => .ok widest
  | e :: es => do
    let t ← e.knownType
    if !t.valid then return .invalid
    widestFrom (if widest.components < t.components then t else widest) es

/-- The operands among the arguments. -/
def argExprs : List Arg → List Expr
  | [] => []
  | .expr e :: as => e :: argExprs as
  | .const _ :: as => argExprs as

/-- A multiply-add; constants take the widest type among the operands. -/
def multiplyAdd (a b c : Arg) : Except Fault Expr := do
  let like ← widestFrom .invalid (argExprs [a, b, c])
  mkTernary .mad (ofArg like a) (ofArg like b) (ofArg like c)

/-- The unsigned type of an operand's width. -/
def unsignedLike (x : Expr) : Except Fault ValueType := do
  let t ← x.knownType
  return if t.valid then .vector .uint t.components else .invalid

/-- A bit or byte alignment by a constant. -/
def alignConst (op : TernaryOp) (x y : Expr) (k : Host) : Except Fault Expr := do
  mkTernary op x y (ofArg (← x.unsignedLike) (.const k))

/-- A bit-field extraction with a constant offset and width. -/
def extractConst (x : Expr) (offset width : Host) : Except Fault Expr := do
  let like ← x.unsignedLike
  mkTernary .bitExtract x (ofArg like (.const offset)) (ofArg like (.const width))

/-- Four operands side by side, merged in pairs. -/
def mergeFour (x y z w : Expr) : Except Fault Expr := do
  let low ← mkBinary .merge x y
  let high ← mkBinary .merge z w
  mkBinary .merge low high

/-! ### Selections -/

/-- A selection of components, folded into a selection below it where both are sound. -/
def pick (x : Expr) (p : Swizzle) : Expr :=
  match x with
  | .select y q =>
    if (selectError y.type q).isSome || (selectError x.type p).isSome then .select x p
    else .select y (q.compose p)
  | _ => .select x p

/-- The components of an expression that a written pattern names. -/
def selectText (x : Expr) (pattern : String) : Except Fault Expr :=
  match Swizzle.parse pattern with
  | .error e => .ok (.unselected x e)
  | .ok p => do
    let _ ← x.knownType
    return pick x p

/-- The first component of an expression, `n` times. -/
def splat (x : Expr) (n : Int) : Except Fault Expr :=
  if n < 1 || 4 < n then .ok (.unselected x (.broadcastCount n))
  else do
    let _ ← x.knownType
    return pick x (.broadcast .x n.toNat)

/-! ### Memory -/

/-- A sample of an input at a coordinate pair. -/
def sampleAt (i : Input) (coord : Expr) : Except Fault Expr := do
  let _ ← coord.knownType
  return .sample i coord

/-- A sample of an input at two coordinates. -/
def sampleXY (i : Input) (x y : Expr) : Except Fault Expr := do
  sampleAt i (← mkBinary .merge x y)

end Expr

/-- An index into the global buffer: an offset, from a base if there is one. -/
structure Address where
  base : Option Expr
  offset : Int64

namespace Address

/-- The address of an expression. -/
def ofExpr (e : Expr) : Address := ⟨some e, 0⟩

/-- The address at a fixed offset. -/
def fixed (offset : Int64) : Address := ⟨none, offset⟩

/-- The address moved up. -/
def add (a : Address) (n : Int64) : Address := { a with offset := a.offset + n }

/-- The address moved down. -/
def sub (a : Address) (n : Int64) : Address := { a with offset := a.offset - n }

/-- The address has a base. -/
def bound (a : Address) : Bool := a.base.isSome

/-- The element of the global buffer at an address. -/
def element (t : ValueType) (a : Address) : Expr :=
  match a.base with
  | none => .elementAt t a.offset
  | some b => .element t b a.offset

end Address

end ShaderIL
