import ShaderIL.Error

/-!
# Host constants

A `Host` is a number of the program that builds expressions: an integer of a fixed width or a
floating-point number given by its bits. `Host.words` is its bit pattern as a component of a kind,
low word first, or the reason why it has none. Integers pass through `Host.narrow`: the number is
wrapped to 32 bits, which must change neither its sign nor its value, and patterns whose low bits
are all ones are kept out, as they are the marks by which an overflow shows.
-/

namespace ShaderIL

/-- A fixed-width integer format. -/
structure IntegerFormat where
  signed : Bool
  bits : Nat
  deriving DecidableEq, Repr

namespace IntegerFormat

/-- The number that remains of an integer in the format. -/
def wrap (f : IntegerFormat) (n : Int) : Int :=
  if f.signed then n.bmod (1 <<< f.bits) else n % (1 <<< f.bits : Nat)

/-- The two 32-bit formats of a register lane. -/
def int32 : IntegerFormat := ⟨true, 32⟩

def uint32 : IntegerFormat := ⟨false, 32⟩

end IntegerFormat

/-- A constant of the building program. -/
inductive Host where
  | integer (format : IntegerFormat) (value : Int)
  | single (bits : UInt32)
  | double (bits : UInt64)
  deriving DecidableEq, Repr

namespace Host

/-- An integer of the machine word. -/
def word (value : Int) : Host := .integer ⟨true, 64⟩ value

/-- The low `n` bits of an integer are all ones. -/
def lowOnes (n : Nat) (value : Int) : Bool := value % (1 <<< n : Nat) == (1 <<< n : Nat) - 1

/-- An integer host narrowed to a 32-bit format. -/
def narrowInteger (target format : IntegerFormat) (value : Int) : Option Int :=
  let positive := decide (0 ≤ value)
  let converted := target.wrap value
  if positive && lowOnes 63 value then none
  else if positive != decide (0 ≤ converted) then none
  else if format.wrap converted != value then none
  else if positive && lowOnes 31 value then none
  else some converted

/-- A floating-point host narrowed to a 32-bit format. -/
def narrowFloat (target : IntegerFormat) (format : FloatFormat) (value : FloatValue) :
    Option Int :=
  match value.truncate with
  | none => none
  | some n =>
    let converted := target.wrap n
    if value.nonneg != decide (0 ≤ converted) then none
    else if !(format.decode (format.ofInt converted)).same value then none
    else some converted

/-- A host constant narrowed to a 32-bit integer format. -/
def narrow (target : IntegerFormat) : Host → Option Int
  | integer format value => narrowInteger target format value
  | single bits => narrowFloat target .single (FloatFormat.single.decode bits.toNat)
  | double bits => narrowFloat target .double (FloatFormat.double.decode bits.toNat)

/-- The bits of the host constant as a double. -/
def doubleBits : Host → Nat
  | integer _ value => FloatFormat.double.ofInt value
  | single bits => FloatFormat.single.convert .double bits.toNat
  | double bits => bits.toNat

/-- The host constant differs from zero. -/
def nonzero : Host → Bool
  | integer _ value => value != 0
  | single bits => (FloatFormat.single.decode bits.toNat).nonzero
  | double bits => (FloatFormat.double.decode bits.toNat).nonzero

/-- The single-precision word of a constant, by way of the double; a magnitude above the largest
single is refused. -/
def singleWord (k : Host) : Except LiftError UInt32 :=
  let bits := k.doubleBits
  let value := FloatFormat.double.decode bits
  if value.exceeds 0xffffff 104 then .error (.overflow value)
  else .ok (UInt32.ofNat (FloatFormat.double.convert .single bits))

/-- The words of a constant as a component of a kind. -/
def words (kind : Kind) (k : Host) : Except LiftError (List UInt32) :=
  match kind with
  | .float => k.singleWord.map fun w => [w]
  | .double =>
    let bits := k.doubleBits
    .ok [UInt32.ofNat (bits % 0x100000000), UInt32.ofNat (bits >>> 32)]
  | .int =>
    match k.narrow .int32 with
    | some n => .ok [UInt32.ofNat (n % 0x100000000).toNat]
    | none => .error .outOfRange
  | .uint =>
    match k.narrow .uint32 with
    | some n => .ok [UInt32.ofNat n.toNat]
    | none => .error .outOfRange
  | .bool => .ok [if k.nonzero then 0xFFFFFFFF else 0]
  | .invalid | .other _ => .error (.noEncoding kind)

end Host

end ShaderIL
