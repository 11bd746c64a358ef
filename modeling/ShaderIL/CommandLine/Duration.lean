/-!
# Durations

A duration below a second is written in micro- or milliseconds, a longer one in minutes and seconds.
-/

namespace ShaderIL

/-- Decimal digits without zeros at the end. -/
def dropEndZeros (cs : List Char) : List Char := (cs.reverse.dropWhile (· == '0')).reverse

/-- A number with a fraction of the given number of digits; zeros at its end are left out. -/
def fractionText (digits n : Nat) : String :=
  let fraction := Nat.toDigits 10 (n % Nat.pow 10 digits)
  let padded := List.replicate (digits - fraction.length) '0' ++ fraction
  let rest := dropEndZeros padded
  toString (n / Nat.pow 10 digits) ++ (if rest.isEmpty then "" else "." ++ String.ofList rest)

/-- A number of microseconds. -/
def durationText (microseconds : Nat) : String :=
  if microseconds == 0 then "0s"
  else if microseconds < 1000 then toString microseconds ++ "µs"
  else if microseconds < 1000000 then fractionText 3 microseconds ++ "ms"
  else
    let minutes := microseconds / 60000000
    (if minutes == 0 then "" else toString minutes ++ "m") ++
      fractionText 6 (microseconds % 60000000) ++ "s"

end ShaderIL
