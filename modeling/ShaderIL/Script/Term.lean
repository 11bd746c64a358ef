import ShaderIL.Expr.Build

/-!
# Terms

A `Term` is an expression written down: the calls that build it, with variables and earlier
expressions given by number. `Term.build` makes the calls, operands from left to right, with the
variables and expressions of an `Env`. A term that mentions a number the environment does not have,
or leaves out an operand whose type is needed, is a fault.
-/

namespace ShaderIL.Script

/-- A shift of an address. -/
inductive Shift where
  | up (n : Int64)
  | down (n : Int64)
  deriving DecidableEq, Repr

/-- The offset after a list of shifts. -/
def shiftAll (start : Int64) (shifts : List Shift) : Int64 :=
  shifts.foldl (fun offset shift => match shift with
    | .up n => offset + n
    | .down n => offset - n) start

/-- An expression by the calls that build it. -/
inductive Term where
  | absent
  | unary (op : UnaryOp) (x : Term)
  | convert (op : Conversion) (type : ValueType) (x : Term)
  | binary (op : BinaryOp) (x y : Term)
  | binaryConst (op : BinaryOp) (x : Term) (k : Host)
  | constBinary (op : BinaryOp) (k : Host) (x : Term)
  | ternary (op : TernaryOp) (x y z : Term)
  /-- A multiply-add with a constant in the given slot and operands in the other two. -/
  | madConst (slot : Fin 3) (x y : Term) (k : Host)
  /-- A multiply-add with an operand in the given slot and constants in the other two. -/
  | madConsts (slot : Fin 3) (x : Term) (k l : Host)
  | alignConst (op : TernaryOp) (x y : Term) (k : Host)
  | extractConst (x : Term) (offset width : Host)
  | mergeFour (x y z w : Term)
  | select (x : Term) (pattern : String)
  | splat (x : Term) (n : Int)
  | const (type : ValueType) (k : Host)
  | vector (type : ValueType) (values : List Host)
  | external (type : ValueType) (text : String)
  | sampleXY (input : Input) (x y : Term)
  | sampleAt (input : Input) (coord : Term)
  | element (type : ValueType) (base : Term) (start : Int64) (shifts : List Shift)
  | elementAt (type : ValueType) (start : Int64) (shifts : List Shift)
  | field (f : BufferField)
  | position (type : ValueType)
  | var (i : Nat)
  | view (i : Nat) (mask : String)
  | varSelect (i : Nat) (pattern : String)
  | earlier (i : Nat)
  deriving DecidableEq

/-- The variables declared and the expressions kept so far. -/
structure Env where
  vars : Array Variable := #[]
  kept : Array Expr := #[]

namespace Env

/-- A variable by number. -/
def var (env : Env) (i : Nat) : Except Fault Variable :=
  match env.vars[i]? with
  | some v => .ok v
  | none => .error .absentOperand

/-- An expression by number. -/
def expr (env : Env) (i : Nat) : Except Fault Expr :=
  match env.kept[i]? with
  | some e => .ok e
  | none => .error .absentOperand

end Env

/-- Put one argument among two others. -/
def insertArg {α : Type} (slot : Fin 3) (a b c : α) : α × α × α :=
  match slot with
  | 0 => (a, b, c)
  | 1 => (b, a, c)
  | 2 => (b, c, a)

namespace Term

/-- Make the calls of a term. -/
def build (env : Env) : Term → Except Fault Expr
  | absent => .ok .absent
  | unary op x => do Expr.mkUnary op (← x.build env)
  | convert op t x => do Expr.mkConvert op t (← x.build env)
  | binary op x y => do
    let a ← x.build env
    let b ← y.build env
    Expr.mkBinary op a b
  | binaryConst op x k => do Expr.binaryConst op (← x.build env) k
  | constBinary op k x => do Expr.constBinary op k (← x.build env)
  | ternary op x y z => do
    let a ← x.build env
    let b ← y.build env
    let c ← z.build env
    Expr.mkTernary op a b c
  | madConst slot x y k => do
    let a ← x.build env
    let b ← y.build env
    let (p, q, r) := insertArg slot (Arg.const k) (Arg.expr a) (Arg.expr b)
    Expr.multiplyAdd p q r
  | madConsts slot x k l => do
    let a ← x.build env
    let (p, q, r) := insertArg slot (Arg.expr a) (Arg.const k) (Arg.const l)
    Expr.multiplyAdd p q r
  | alignConst op x y k => do
    let a ← x.build env
    let b ← y.build env
    Expr.alignConst op a b k
  | extractConst x offset width => do Expr.extractConst (← x.build env) offset width
  | mergeFour x y z w => do
    let a ← x.build env
    let b ← y.build env
    let c ← z.build env
    let d ← w.build env
    Expr.mergeFour a b c d
  | select x pattern => do Expr.selectText (← x.build env) pattern
  | splat x n => do Expr.splat (← x.build env) n
  | const t k => .ok (.literal (Literal.const t k))
  | vector t values => .ok (.literal (Literal.ofValues t values))
  | external t text => .ok (.external t text)
  | sampleXY input x y => do
    let a ← x.build env
    let b ← y.build env
    Expr.sampleXY input a b
  | sampleAt input coord => do Expr.sampleAt input (← coord.build env)
  | element t base start shifts => do
    let b ← base.build env
    return .element t b (shiftAll start shifts)
  | elementAt t start shifts => .ok (.elementAt t (shiftAll start shifts))
  | field f => .ok (.field f)
  | position t => .ok (.position t)
  | var i => do return .var (← env.var i)
  | view i mask => do return .view (← env.var i) mask
  | varSelect i pattern => do Expr.selectText (.var (← env.var i)) pattern
  | earlier i => env.expr i

end Term

/-- An address written down; without a base it is a fixed offset. -/
structure AddressTerm where
  base : Option Term
  start : Int64
  shifts : List Shift

/-- Make the calls of an address. -/
def AddressTerm.build (env : Env) (a : AddressTerm) : Except Fault Address :=
  let offset := shiftAll a.start a.shifts
  match a.base with
  | none => .ok ⟨none, offset⟩
  | some b => do return ⟨some (← b.build env), offset⟩

end ShaderIL.Script
