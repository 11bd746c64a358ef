import ShaderIL.Text.Bytes

/-!
# Integers of the command line

An integer is written with an optional sign and an optional mark of its base: `0b`, `0o` or `0x`, or
a zero for base eight. Underscores may separate digits and follow the mark. `readInteger` gives the
number, or says whether the text is no integer or an integer beyond 64 bits. A text is read from
left to right, so a number that is already too large is not read to its end.
-/

namespace ShaderIL

/-- Why a text has no 64-bit integer. -/
inductive IntegerError where
  | malformed
  | outOfRange
  deriving DecidableEq, Repr

/-- The value of a digit or letter in the largest base. -/
def digitValue? (c : Char) : Option Nat :=
  if c.isDigit then some (c.toNat - '0'.toNat)
  else if c.isAlpha then some (c.toLower.toNat - 'a'.toNat + 10)
  else none

/-- The base and the digits of a number without sign. -/
def integerBase (cs : List Char) : Nat × List Char :=
  match cs with
  | '0' :: c :: d :: rest =>
    match c.toLower with
    | 'b' => (2, d :: rest)
    | 'o' => (8, d :: rest)
    | 'x' => (16, d :: rest)
    | _ => (8, c :: d :: rest)
  | '0' :: rest => (8, rest)
  | cs => (10, cs)

/-- The number of digits in a base after those read so far. -/
def readDigits (base n : Nat) : List Char → Except IntegerError Nat
  | [] => .ok n
  | c :: cs =>
    if c == '_' then readDigits base n cs
    else
      match digitValue? c with
      | none => .error .malformed
      | some d =>
        if base ≤ d then .error .malformed
        else if 0x10000000000000000 ≤ base * n + d then .error .outOfRange
        else readDigits base (base * n + d) cs

/-- Underscores separate digits; `before` says whether a digit or a mark of a base came last. -/
def underscoresApart (hex before : Bool) : List Char → Bool
  | [] => true
  | c :: cs =>
    let isDigit := c.isDigit || (hex && c.isAlpha && c.toLower.toNat ≤ 'f'.toNat)
    if c == '_' then
      before && (match cs with
        | [] => false
        | d :: _ => d.isDigit || (hex && d.isAlpha && d.toLower.toNat ≤ 'f'.toNat)) &&
        underscoresApart hex false cs
    else underscoresApart hex isDigit cs

/-- The underscores of a number without sign are in place. -/
def underscoresInPlace (cs : List Char) : Bool :=
  match cs with
  | '0' :: c :: rest =>
    let mark := c.toLower
    if mark == 'b' || mark == 'o' || mark == 'x' then underscoresApart (mark == 'x') true rest
    else underscoresApart false false cs
  | cs => underscoresApart false false cs

/-- The number without sign that a text holds. -/
def readMagnitude (cs : List Char) : Except IntegerError Nat :=
  if cs.isEmpty then .error .malformed
  else
    let (base, digits) := integerBase cs
    match readDigits base 0 digits with
    | .error e => .error e
    | .ok n => if cs.contains '_' && !underscoresInPlace cs then .error .malformed else .ok n

/-- The integer that a text holds. -/
def readInteger (s : String) : Except IntegerError Int :=
  let (negative, cs) := match s.toList with
    | '-' :: cs => (true, cs)
    | '+' :: cs => (false, cs)
    | cs => (false, cs)
  match readMagnitude cs with
  | .error e => .error e
  | .ok n =>
    if negative then (if 0x8000000000000000 < n then .error .outOfRange else .ok (-n))
    else if 0x8000000000000000 ≤ n then .error .outOfRange
    else .ok n

end ShaderIL
