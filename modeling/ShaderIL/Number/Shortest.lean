import ShaderIL.Number.FloatFormat

/-!
# Shortest decimal text of a double

`shortest` finds the fewest decimal digits that read back as a given double: for one digit,
two digits, and so on it takes the two neighbours of the value on that decimal grid and keeps the
nearer one of those that round to the value. Seventeen digits always suffice. `scientific` writes
the digits with one of them before the point and a signed exponent of at least two digits, the form
for values far from one.
-/

namespace ShaderIL

/-- A decimal number `digits * 10 ^ exponent`. -/
structure Decimal where
  digits : Nat
  exponent : Int
  deriving DecidableEq, Repr

namespace Decimal

/-- The power `10 ^ j`, one for an exponent below zero. -/
def tenTo (j : Int) : Nat := Nat.pow 10 j.toNat

/-- Compare `d * 10 ^ j` with `x * 2 ^ a`. -/
def cmpScaled (d : Nat) (j : Int) (x : Nat) (a : Int) : Ordering :=
  compare ((d * tenTo j) <<< (-a).toNat) ((x * tenTo (-j)) <<< a.toNat)

/-- The integer part of `x * 2 ^ a / 10 ^ j`. -/
def floorScaled (x : Nat) (a j : Int) : Nat :=
  (x * tenTo (-j)) <<< a.toNat / tenTo j <<< (-a).toNat

/-- The decimal exponent of the leading digit of a double `x * 2 ^ a` above zero. -/
def leadingExponent (x : Nat) (a : Int) : Int :=
  let k := ((List.range 633).find? fun i : Nat =>
    cmpScaled 1 ((i : Int) - 323) x a == .gt).getD 633
  (k : Int) - 324

/-- The neighbour on the grid `10 ^ j` that rounds to the double `m * 2 ^ e`, the nearer of two.
Positions are counted in quarters of the last place, so that the ends of the rounding interval,
`below` quarters under and two quarters above the value, are whole. The ends count if `m` is
even. -/
def onGrid? (m : Nat) (e : Int) (below : Nat) (j : Int) : Option Nat :=
  let a := e - 2
  let low := floorScaled (4 * m) a j
  let high := low + 1
  let lowEnd := cmpScaled low j (4 * m - below) a
  let highEnd := cmpScaled high j (4 * m + 2) a
  let lowFits := lowEnd == .gt || (lowEnd == .eq && m % 2 == 0)
  let highFits := highEnd == .lt || (highEnd == .eq && m % 2 == 0)
  match lowFits, highFits with
  | true, true =>
    match cmpScaled (low + high) j (8 * m) a with
    | .gt => some low
    | .lt => some high
    | .eq => some (if low % 2 == 0 then low else high)
  | true, false => some low
  | false, true => some high
  | false, false => none

/-- The decimal without trailing zeros, at most `fuel` of them. -/
def strip : Nat → Decimal → Decimal
  | 0, d => d
  | fuel + 1, d =>
    if d.digits != 0 && d.digits % 10 == 0 then strip fuel ⟨d.digits / 10, d.exponent + 1⟩ else d

/-- The fewest digits that read back as the double `m * 2 ^ e` above zero. -/
def shortest (m : Nat) (e : Int) : Decimal :=
  let f := FloatFormat.double
  let below := if m == 1 <<< f.fractionBits && f.minExponent < e then 1 else 2
  let lead := leadingExponent m e
  let found := (List.range 17).findSome? fun n : Nat =>
    (onGrid? m e below (lead - (n : Int))).map fun d => Decimal.mk d (lead - (n : Int))
  strip 20 (found.getD ⟨0, 0⟩)

/-- The text of a decimal with one digit before the point and an exponent. -/
def scientific (d : Decimal) : String :=
  let digits := toString d.digits
  let exponent := d.exponent + ((digits.length - 1 : Nat) : Int)
  let size := toString exponent.natAbs
  let size := if size.length < 2 then "0" ++ size else size
  let fraction := String.ofList (digits.toList.drop 1)
  String.ofList (digits.toList.take 1) ++
    (if fraction.isEmpty then "" else "." ++ fraction) ++
    (if exponent < 0 then "e-" else "e+") ++ size

end Decimal

/-- The text of a double too large for single precision: an infinity or the shortest digits that
read back, with an exponent. -/
def largeDoubleText : FloatValue → String
  | .finite negative mantissa exponent =>
    (if negative then "-" else "") ++ (Decimal.shortest mantissa exponent).scientific
  | .infinity negative => if negative then "-Inf" else "+Inf"
  | .nan _ _ => "NaN"

end ShaderIL
