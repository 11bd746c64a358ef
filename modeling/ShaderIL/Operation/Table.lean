import ShaderIL.Error
import ShaderIL.Operation.BitField
import ShaderIL.Operation.Convert
import ShaderIL.Operation.Math

/-!
# The operation table

Which overload an operation has at given operand types. The table covers the standard types only:
an operand of any other type has no overload. `Opcode.resolve` and `Opcode.resolveConversion` look
an overload up by opcode and say why there is none; `Opcode.overloads` lists all overloads of an
operation in the order of the catalog, the last operand changing fastest.
-/

namespace ShaderIL

/-- The overload of a unary operation. -/
def UnaryOp.overload? (op : UnaryOp) (t : ValueType) : Option Overload :=
  if t.standard then
    match op with
    | .neg => Overload.negation t
    | .bitNot =>
      if t.kind.isInteger then some (Overload.unaryDirect (.unary .bitNot) t t .inot) else none
    | .not => if t.kind == .bool then some (Overload.unaryDirect (.unary .not) t t .inot) else none
    | .abs => Overload.floatOnly .abs .abs t
    | .sqrt => Overload.floatOnly .sqrt .sqrt t
    | .rsqrt => Overload.floatOnly .rsqrt .rsqrt t
    | .floor => Overload.floatOnly .floor .floor t
    | .ceil => Overload.floatOnly .ceil .ceil t
    | .fract => Overload.floatOnly .fract .fract t
  else none

/-- The overload of a conversion to a type. -/
def Conversion.overload? (op : Conversion) (target source : ValueType) : Option Overload :=
  if target.standard && source.standard then
    match op with
    | .cast => Overload.cast target source
    | .bitcast => Overload.bitcast target source
  else none

/-- The overload of a binary operation. -/
def BinaryOp.overload? (op : BinaryOp) (a b : ValueType) : Option Overload :=
  if a.standard && b.standard then
    match op with
    | .add => Overload.lanewise .add (Mnemonic.numeric .add .dadd .iadd .iadd) a b
    | .sub => Overload.difference a b
    | .mul => Overload.lanewise .mul (Mnemonic.numeric .mul .dmul .imul .umul) a b
    | .div => Overload.lanewise .div (Mnemonic.numeric .div .ddiv .idiv .udiv) a b
    | .mod => Overload.remainder a b
    | .min => Overload.lanewise .min (Mnemonic.numeric .min .dmin .imin .umin) a b
    | .max => Overload.lanewise .max (Mnemonic.numeric .max .dmax .imax .umax) a b
    | .and => Overload.lanewise .and (Mnemonic.bitwise .iand) a b
    | .or => Overload.lanewise .or (Mnemonic.bitwise .ior) a b
    | .xor => Overload.lanewise .xor (Mnemonic.bitwise .ixor) a b
    | .shl => Overload.shift .shl .ishl .ishl a b
    | .shr => Overload.shift .shr .ishr .ushr a b
    | .eq => Overload.compare .eq (Mnemonic.equality .eq .deq .ieq) false a b
    | .ne => Overload.compare .ne (Mnemonic.equality .ne .dne .ine) false a b
    | .lt => Overload.compare .lt (Mnemonic.numeric .lt .dlt .ilt .ult) false a b
    | .le => Overload.compare .le (Mnemonic.numeric .ge .dge .ige .uge) true a b
    | .gt => Overload.compare .gt (Mnemonic.numeric .lt .dlt .ilt .ult) true a b
    | .ge => Overload.compare .ge (Mnemonic.numeric .ge .dge .ige .uge) false a b
    | .dot => Overload.dot a b
    | .merge => Overload.merge a b
  else none

/-- The overload of a ternary operation. -/
def TernaryOp.overload? (op : TernaryOp) (a b c : ValueType) : Option Overload :=
  if a.standard && b.standard && c.standard then
    match op with
    | .mad => Overload.multiplyAdd a b c
    | .select => Overload.choice a b c
    | .bitAlign => Overload.align .bitAlign .bitAlign a b c
    | .byteAlign => Overload.align .byteAlign .byteAlign a b c
    | .bitInsert => Overload.bitInsert a b c
    | .bitExtract => Overload.bitExtract a b c
  else none

namespace Opcode

/-- The overload of an operation at a list of operand types. -/
def overload? : Opcode → List ValueType → Option Overload
  | unary op, [a] => op.overload? a
  | binary op, [a, b] => op.overload? a b
  | ternary op, [a, b, c] => op.overload? a b c
  | _, _ => none

/-- The overload of an operation that is not a conversion, or why there is none. -/
def resolve (op : Opcode) (args : List ValueType) : Except Error Overload :=
  match op with
  | convert _ => .error (.needsTarget op)
  | _ =>
    if args.length != op.arity then .error (.operandCount op args.length)
    else
      match op.overload? args with
      | some f => .ok f
      | none => .error (.noOverload op args)

/-- The overload of a conversion to a type, or why there is none. -/
def resolveConversion (op : Opcode) (target source : ValueType) : Except Error Overload :=
  match op with
  | convert c =>
    match c.overload? target source with
    | some f => .ok f
    | none => .error (.noConversion op source target)
  | _ => .error (.notConversion op)

/-- All tuples of `n` standard types, the last one changing fastest. -/
def tuples : Nat → List (List ValueType)
  | 0 => [[]]
  | n + 1 => ValueType.catalog.flatMap fun t => (tuples n).map (t :: ·)

/-- All overloads of an operation. -/
def overloads : Opcode → List Overload
  | convert c =>
    ValueType.catalog.flatMap fun target => ValueType.catalog.filterMap (c.overload? target)
  | op => (tuples op.arity).filterMap op.overload?

end Opcode

end ShaderIL
