import ShaderIL.ValueType

/-!
# Operations

The operations of the instruction set by the number of operands they take: `UnaryOp`, `Conversion`
(one operand and a target type), `BinaryOp` and `TernaryOp`. `Opcode` joins them, in the order in
which they are numbered; `unknown` keeps a number that names no operation.
-/

namespace ShaderIL

/-- Operations on one operand. -/
inductive UnaryOp where
  | neg
  | bitNot
  | not
  | abs
  | sqrt
  | rsqrt
  | floor
  | ceil
  | fract
  deriving DecidableEq, Repr

/-- Operations on one operand that name the type of their result. -/
inductive Conversion where
  | cast
  | bitcast
  deriving DecidableEq, Repr

/-- Operations on two operands. -/
inductive BinaryOp where
  | add
  | sub
  | mul
  | div
  | mod
  | min
  | max
  | and
  | or
  | xor
  | shl
  | shr
  | eq
  | ne
  | lt
  | le
  | gt
  | ge
  | dot
  | merge
  deriving DecidableEq, Repr

/-- Operations on three operands. -/
inductive TernaryOp where
  | mad
  | select
  | bitAlign
  | byteAlign
  | bitInsert
  | bitExtract
  deriving DecidableEq, Repr

/-- Any operation. -/
inductive Opcode where
  | unary (op : UnaryOp)
  | convert (op : Conversion)
  | binary (op : BinaryOp)
  | ternary (op : TernaryOp)
  | unknown (code : Nat)
  deriving DecidableEq, Repr

namespace UnaryOp

/-- The unary operations in numbering order. -/
def all : List UnaryOp := [neg, bitNot, not, abs, sqrt, rsqrt, floor, ceil, fract]

/-- The name of a unary operation. -/
def text : UnaryOp → String
  | neg => "neg"
  | bitNot => "bitnot"
  | not => "not"
  | abs => "abs"
  | sqrt => "sqrt"
  | rsqrt => "rsqrt"
  | floor => "floor"
  | ceil => "ceil"
  | fract => "fract"

end UnaryOp

namespace Conversion

/-- The conversions in numbering order. -/
def all : List Conversion := [cast, bitcast]

/-- The name of a conversion. -/
def text : Conversion → String
  | cast => "cast"
  | bitcast => "bitcast"

end Conversion

namespace BinaryOp

/-- The binary operations in numbering order. -/
def all : List BinaryOp :=
  [add, sub, mul, div, mod, min, max, and, or, xor, shl, shr, eq, ne, lt, le, gt, ge, dot, merge]

/-- The name of a binary operation. -/
def text : BinaryOp → String
  | add => "add"
  | sub => "sub"
  | mul => "mul"
  | div => "div"
  | mod => "mod"
  | min => "min"
  | max => "max"
  | and => "and"
  | or => "or"
  | xor => "xor"
  | shl => "shl"
  | shr => "shr"
  | eq => "eq"
  | ne => "ne"
  | lt => "lt"
  | le => "le"
  | gt => "gt"
  | ge => "ge"
  | dot => "dot"
  | merge => "merge"

end BinaryOp

namespace TernaryOp

/-- The ternary operations in numbering order. -/
def all : List TernaryOp := [mad, select, bitAlign, byteAlign, bitInsert, bitExtract]

/-- The name of a ternary operation. -/
def text : TernaryOp → String
  | mad => "mad"
  | select => "select"
  | bitAlign => "bitalign"
  | byteAlign => "bytealign"
  | bitInsert => "bfi"
  | bitExtract => "bitextract"

end TernaryOp

namespace Opcode

/-- Every operation in numbering order. -/
def all : List Opcode :=
  UnaryOp.all.map unary ++ Conversion.all.map convert ++ BinaryOp.all.map binary ++
    TernaryOp.all.map ternary

/-- The operation of a number. -/
def ofCode (code : Nat) : Opcode := (all[code]?).getD (unknown code)

/-- The name of an operation; a number without one is shown as such. -/
def text : Opcode → String
  | unary op => op.text
  | convert op => op.text
  | binary op => op.text
  | ternary op => op.text
  | unknown code => "op(" ++ toString code ++ ")"

/-- The operation of a name. -/
def ofText? (name : String) : Option Opcode := all.find? fun op => op.text == name

/-- How many operands an operation takes. -/
def arity : Opcode → Nat
  | unary _ | convert _ => 1
  | binary _ => 2
  | ternary _ | unknown _ => 3

/-- An operation with the types of its operands, `op(t1, t2)`. -/
def signature (op : Opcode) (args : List ValueType) : String :=
  op.text ++ "(" ++ ", ".intercalate (args.map ValueType.text) ++ ")"

end Opcode

end ShaderIL
