/-!
# Binary floating-point formats

A `FloatFormat` fixes the number of significant bits and of exponent bits of a binary interchange
format. `decode` reads a bit pattern as a `FloatValue`: a signed natural mantissa times a power of
two, an infinity, or a not-a-number with its payload. `round` is the way back, to the nearest
representable value with ties to the even mantissa, and `convert` reads in one format and rounds to
another. A not-a-number keeps as much of its payload as fits and becomes quiet.
-/

namespace ShaderIL

/-- A binary interchange format. -/
structure FloatFormat where
  precision : Nat
  exponentBits : Nat
  deriving DecidableEq, Repr

/-- What a bit pattern stands for. A finite value is `± mantissa * 2 ^ exponent`. -/
inductive FloatValue where
  | finite (negative : Bool) (mantissa : Nat) (exponent : Int)
  | infinity (negative : Bool)
  | nan (negative : Bool) (payload : Nat)
  deriving DecidableEq, Repr

/-- The quotient rounded to the nearest natural number, ties to even. -/
def roundDiv (num den : Nat) : Nat :=
  let q := num / den
  let r := num % den
  if 2 * r < den then q
  else if den < 2 * r then q + 1
  else q + q % 2

namespace FloatFormat

/-- Single precision, 32 bits. -/
def single : FloatFormat := ⟨24, 8⟩

/-- Double precision, 64 bits. -/
def double : FloatFormat := ⟨53, 11⟩

/-- The number of stored mantissa bits. -/
def fractionBits (f : FloatFormat) : Nat := f.precision - 1

/-- The exponent field of infinities and not-a-numbers. -/
def specialExponent (f : FloatFormat) : Nat := 1 <<< f.exponentBits - 1

/-- The exponent of the last place of the smallest values. -/
def minExponent (f : FloatFormat) : Int :=
  2 - (1 <<< (f.exponentBits - 1) : Nat) - (f.fractionBits : Nat)

/-- The pattern made of a sign, an exponent field and a fraction field. -/
def pack (f : FloatFormat) (negative : Bool) (exponent fraction : Nat) : Nat :=
  (if negative then 1 <<< (f.fractionBits + f.exponentBits) else 0) +
    exponent <<< f.fractionBits + fraction

/-- The value of a bit pattern. -/
def decode (f : FloatFormat) (bits : Nat) : FloatValue :=
  let fraction := bits % (1 <<< f.fractionBits)
  let exponent := (bits >>> f.fractionBits) % (1 <<< f.exponentBits)
  let negative := bits.testBit (f.fractionBits + f.exponentBits)
  if exponent == f.specialExponent then
    if fraction == 0 then .infinity negative else .nan negative fraction
  else if exponent == 0 then .finite negative fraction f.minExponent
  else .finite negative (fraction + 1 <<< f.fractionBits) (f.minExponent + exponent - 1)

/-- The pattern of the representable value nearest to `± mantissa * 2 ^ exponent`. -/
def round (f : FloatFormat) (negative : Bool) (mantissa : Nat) (exponent : Int) : Nat :=
  let place := max (exponent + (mantissa.log2 + 1 : Nat) - (f.precision : Nat)) f.minExponent
  let m :=
    if place ≤ exponent then mantissa <<< (exponent - place).toNat
    else roundDiv mantissa (1 <<< (place - exponent).toNat)
  let carried := m == 1 <<< f.precision
  let m := if carried then 1 <<< f.fractionBits else m
  let field := (place - f.minExponent).toNat + (if carried then 1 else 0)
  if mantissa == 0 then f.pack negative 0 0
  else if m < 1 <<< f.fractionBits then f.pack negative 0 m
  else if f.specialExponent ≤ field + 1 then f.pack negative f.specialExponent 0
  else f.pack negative (field + 1) (m - 1 <<< f.fractionBits)

/-- The pattern of the representable value nearest to an integer. -/
def ofInt (f : FloatFormat) (n : Int) : Nat :=
  f.round (decide (n < 0)) n.natAbs 0

/-- A not-a-number of the target format with the leading payload bits of the source format. -/
def quietNan (source target : FloatFormat) (negative : Bool) (payload : Nat) : Nat :=
  let kept :=
    payload <<< (target.precision - source.precision) >>>
      (source.precision - target.precision)
  target.pack negative target.specialExponent (kept ||| 1 <<< (target.fractionBits - 1))

/-- The pattern in the target format of a pattern in the source format. -/
def convert (source target : FloatFormat) (bits : Nat) : Nat :=
  match source.decode bits with
  | .finite negative mantissa exponent => target.round negative mantissa exponent
  | .infinity negative => target.pack negative target.specialExponent 0
  | .nan negative payload => quietNan source target negative payload

end FloatFormat

namespace FloatValue

/-- The value is zero or above. -/
def nonneg : FloatValue → Bool
  | finite negative mantissa _ => !negative || mantissa == 0
  | infinity negative => !negative
  | nan _ _ => false

/-- The value differs from zero; a not-a-number does. -/
def nonzero : FloatValue → Bool
  | finite _ mantissa _ => mantissa != 0
  | infinity _ | nan _ _ => true

/-- The integer part of a finite value, toward zero. -/
def truncate : FloatValue → Option Int
  | finite negative mantissa exponent =>
    let magnitude : Nat :=
      if 0 ≤ exponent then mantissa <<< exponent.toNat else mantissa >>> (-exponent).toNat
    some (if negative then -(magnitude : Int) else magnitude)
  | infinity _ | nan _ _ => none

/-- Two values are the same number; a not-a-number is never equal to anything. -/
def same : FloatValue → FloatValue → Bool
  | finite n₁ m₁ e₁, finite n₂ m₂ e₂ =>
    (m₁ == 0 && m₂ == 0) ||
      (n₁ == n₂ && m₁ <<< (e₁ - e₂).toNat == m₂ <<< (e₂ - e₁).toNat)
  | infinity n₁, infinity n₂ => n₁ == n₂
  | _, _ => false

/-- The magnitude exceeds `bound * 2 ^ place`; a not-a-number exceeds nothing. -/
def exceeds (bound : Nat) (place : Int) : FloatValue → Bool
  | finite _ mantissa exponent =>
    decide (bound <<< (place - exponent).toNat < mantissa <<< (exponent - place).toNat)
  | infinity _ => true
  | nan _ _ => false

end FloatValue

end ShaderIL
