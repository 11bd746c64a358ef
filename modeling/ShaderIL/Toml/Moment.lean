import ShaderIL.Toml.Value

/-!
# TOML moments

A moment is a date, a time of day, or both with or without an offset from universal time. `isMoment`
says whether a text is one: the parts must be in range, and a date must exist in its month. The hour
may have one digit. Between date and time stands a `T` or a blank, and letters may be small.
-/

namespace ShaderIL.Toml

/-- The value of a digit. -/
def digit? (c : Char) : Option Nat := if c.isDigit then some (c.toNat - '0'.toNat) else none

/-- Two digits at the front, and the rest. -/
def twoDigits : List Char → Option (Nat × List Char)
  | a :: b :: rest => do return (10 * (← digit? a) + (← digit? b), rest)
  | _ => none

/-- One or two digits at the front, and the rest. -/
def oneOrTwoDigits (cs : List Char) : Option (Nat × List Char) :=
  match twoDigits cs, cs with
  | some r, _ => some r
  | none, a :: rest => (digit? a).map fun n => (n, rest)
  | none, [] => none

/-- What follows a character. -/
def after? (c : Char) : List Char → Option (List Char)
  | d :: rest => if d == c then some rest else none
  | [] => none

/-- A year has February 29. -/
def isLeap (year : Nat) : Bool := year % 4 == 0 && (year % 100 != 0 || year % 400 == 0)

/-- The days of a month. -/
def daysIn (year month : Nat) : Nat :=
  match month with
  | 2 => if isLeap year then 29 else 28
  | 4 | 6 | 9 | 11 => 30
  | _ => 31

/-- What follows a date. -/
def afterDate? (cs : List Char) : Option (List Char) := do
  let (century, rest) ← twoDigits cs
  let (decade, rest) ← twoDigits rest
  let (month, rest) ← twoDigits (← after? '-' rest)
  let (day, rest) ← twoDigits (← after? '-' rest)
  if 1 ≤ month && month ≤ 12 && 1 ≤ day && day ≤ daysIn (100 * century + decade) month then
    return rest
  else none

/-- What follows a fraction of a second, if there is one. -/
def afterFraction : List Char → List Char
  | '.' :: c :: rest => if c.isDigit then rest.dropWhile Char.isDigit else '.' :: c :: rest
  | cs => cs

/-- What follows a time of day. -/
def afterTime? (cs : List Char) : Option (List Char) := do
  let (hour, rest) ← oneOrTwoDigits cs
  let (minute, rest) ← twoDigits (← after? ':' rest)
  let (second, rest) ← twoDigits (← after? ':' rest)
  if hour < 24 && minute < 60 && second < 60 then return afterFraction rest else none

/-- What follows an offset. -/
def afterOffset? : List Char → Option (List Char)
  | 'Z' :: rest => some rest
  | sign :: rest => do
    let (hours, rest) ← twoDigits rest
    let (minutes, rest) ← twoDigits (← after? ':' rest)
    if (sign == '+' || sign == '-') && hours ≤ 24 && minutes ≤ 60 then return rest else none
  | [] => none

/-- The letters of a moment in their large form, with a `T` for a blank. -/
def largeLetter : Char → Char
  | 'z' => 'Z'
  | 't' => 'T'
  | ' ' => 'T'
  | c => c

/-- The text is a moment. -/
def isMoment (token : List Char) : Bool :=
  let cs := token.map largeLetter
  let dateTime := do afterTime? (← after? 'T' (← afterDate? cs))
  let ends (rest : Option (List Char)) : Bool := rest.any List.isEmpty
  ends (dateTime.bind afterOffset?) || ends dateTime || ends (afterDate? cs) ||
    ends (afterTime? cs)

/-- The characters of a moment. -/
def isMomentChar (c : Char) : Bool :=
  c.isDigit || c == '-' || c == ':' || c == 'T' || c == 't' || c == ' ' || c == '.' || c == 'Z' ||
    c == 'z' || c == '+'

/-- The characters without blanks at the end. -/
def dropEndBlanks (cs : List Char) : List Char := (cs.reverse.dropWhile (· == ' ')).reverse

/-- A moment at the front, and the rest. -/
def moment? (cs : List Char) : Option (Value × List Char) :=
  if isMoment (dropEndBlanks (cs.takeWhile isMomentChar)) then
    some (.moment, cs.dropWhile isMomentChar)
  else none

end ShaderIL.Toml
