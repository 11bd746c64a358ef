import ShaderIL.Toml.Quotation

/-!
# TOML numbers

Whole numbers are written in base ten with an optional sign, or in base two, eight or sixteen
without one; they must fit 64 bits. Floating-point numbers have a fraction or an exponent, or are
one of the words for infinity and not-a-number; they must not exceed the largest double. Underscores
stand between digits only, and a number has no leading zeros.
-/

namespace ShaderIL.Toml

/-- The character may stand beside an underscore. -/
def besideUnderscore (c : Char) : Bool := (hexDigit? c).isSome

/-- Every underscore follows a digit, and a digit comes last. -/
def underscoresFit (before : Bool) : List Char → Bool
  | [] => before
  | c :: cs => (c != '_' || before) && underscoresFit (besideUnderscore c) cs

/-- More than one character, the first of them a zero. -/
def leadingZero : List Char → Bool
  | '0' :: _ :: _ => true
  | _ => false

/-- The characters without a sign at the front. -/
def unsigned : List Char → List Char
  | '+' :: cs => cs
  | '-' :: cs => cs
  | cs => cs

/-- The number of digits in a base; underscores count for nothing. -/
def digitsValue (base : Nat) (cs : List Char) : Nat :=
  (cs.filterMap hexDigit?).foldl (fun n d => base * n + d) 0

/-- A whole number that fits 64 bits. -/
def inRange? (n : Int) : Option Value :=
  if -0x8000000000000000 ≤ n && n < 0x8000000000000000 then some (.integer n) else none

/-- A whole number in base ten. -/
def decimalValue? (token : List Char) : Option Value :=
  if !underscoresFit false token || leadingZero (unsigned token) then none
  else
    let n : Int := digitsValue 10 (unsigned token)
    inRange? (if token.head? == some '-' then -n else n)

/-- A whole number in another base, without its mark. -/
def basedValue? (base : Nat) (token : List Char) : Option Value :=
  if underscoresFit false token then inRange? (digitsValue base token) else none

/-! ### Floating-point numbers -/

/-- The parts of a floating-point number: digits before the point, after it, and the exponent. -/
structure Scientific where
  whole : List Char
  fraction : List Char
  exponent : Int

/-- The pieces between points and exponent marks; empty pieces do not count. -/
def pieces : List Char → List (List Char)
  | [] => []
  | c :: cs =>
    let rest := pieces cs
    if c == '.' || c == 'e' || c == 'E' then [] :: rest
    else
      match rest with
      | [] => [[c]]
      | p :: ps => (c :: p) :: ps

/-- Every point is followed by a digit. -/
def pointsFit : List Char → Bool
  | [] => true
  | '.' :: c :: cs => c.isDigit && pointsFit (c :: cs)
  | '.' :: [] => false
  | _ :: cs => pointsFit cs

/-- The exponent at the front, nothing after it. -/
def exponent? : List Char → Option Int
  | [] => some 0
  | c :: cs =>
    let digits := unsigned cs
    if (c == 'e' || c == 'E') && !digits.isEmpty && digits.all Char.isDigit then
      let n : Int := digitsValue 10 digits
      some (if cs.head? == some '-' then -n else n)
    else none

/-- The parts of a number without sign and underscores. -/
def scientific? (cs : List Char) : Option Scientific :=
  let whole := cs.takeWhile Char.isDigit
  let rest := cs.dropWhile Char.isDigit
  if whole.isEmpty then none
  else
    match rest with
    | '.' :: rest =>
      (exponent? (rest.dropWhile Char.isDigit)).map fun e =>
        ⟨whole, rest.takeWhile Char.isDigit, e⟩
    | rest => (exponent? rest).map fun e => ⟨whole, [], e⟩

/-- The least number that is too large for a double: half a unit above the largest one. -/
def overflowBound : Nat := 0x3fffffffffffff <<< 970

/-- The number is too large for a double. Far from the bound the count of digits decides. -/
def Scientific.overflows (s : Scientific) : Bool :=
  let m := digitsValue 10 (s.whole ++ s.fraction)
  let e := s.exponent - s.fraction.length
  let size := (Nat.toDigits 10 m).length + e
  if m == 0 || size < 300 then false
  else if 320 < size then true
  else if 0 ≤ e then overflowBound ≤ m * Nat.pow 10 e.toNat
  else overflowBound * Nat.pow 10 (-e).toNat ≤ m

/-- A floating-point number. -/
def floatValue? (token : List Char) : Option Value :=
  let parts := (pieces token).filter fun p => !p.isEmpty
  if !parts.all (underscoresFit false) then none
  else if parts.head?.any fun p => leadingZero (unsigned p) then none
  else if !pointsFit token then none
  else
    match scientific? ((unsigned token).filter (· != '_')) with
    | some s => if s.overflows then none else some .float
    | none => none

/-! ### Reading -/

/-- The characters of a number with a fraction or an exponent. -/
def isFloatChar (c : Char) : Bool :=
  c.isDigit || c == '_' || c == '.' || c == '-' || c == '+' || c == 'e' || c == 'E'

/-- Infinity or not-a-number at the front, and the rest. -/
def word? : List Char → Option (Value × List Char)
  | 'i' :: 'n' :: 'f' :: rest => some (.float, rest)
  | 'n' :: 'a' :: 'n' :: rest => some (.float, rest)
  | _ => none

/-- A number in base ten at the front after an optional sign, and the rest. -/
def decimal? (sign cs : List Char) : Option (Value × List Char) :=
  let isPlain (c : Char) : Bool := c.isDigit || c == '_'
  let rest := cs.dropWhile isPlain
  if rest.head?.any fun c => c == '.' || c == 'e' || c == 'E' then
    (floatValue? (sign ++ cs.takeWhile isFloatChar)).map fun v => (v, cs.dropWhile isFloatChar)
  else (decimalValue? (sign ++ cs.takeWhile isPlain)).map fun v => (v, rest)

/-- The base of a mark after a zero. -/
def base? : Char → Option Nat
  | 'b' => some 2
  | 'o' => some 8
  | 'x' => some 16
  | _ => none

/-- The character is a digit of a base. -/
def isDigitIn (base : Nat) (c : Char) : Bool := (hexDigit? c).any (· < base)

/-- A number in another base at the front, without its mark, and the rest. -/
def based? (base : Nat) (cs : List Char) : Option (Value × List Char) :=
  let isPlain (c : Char) : Bool := isDigitIn base c || c == '_'
  if cs.head?.any (isDigitIn base) then
    (basedValue? base (cs.takeWhile isPlain)).map fun v => (v, cs.dropWhile isPlain)
  else none

/-- A number after a sign. -/
def signed? (sign : Char) (cs : List Char) : Option (Value × List Char) :=
  match cs with
  | '0' :: c :: _ => if (base? c).isSome then none else decimal? [sign] cs
  | c :: _ => if c.isDigit then decimal? [sign] cs else word? cs
  | [] => none

end ShaderIL.Toml
