import ShaderIL.Text.Printable

/-!
# Quoted text

`quoted` writes a string between double quotes, `quotedByte` one byte between single quotes as the
character of that value. A quote of the surrounding kind and a backslash are escaped by a
backslash, printable characters stand for themselves, the seven named control characters take their
one-letter escape, and all else is written by its code point: `\x` and two digits for the other
seven-bit controls, `\u` and four digits below `0x10000`, `\U` and eight digits from there on.
-/

namespace ShaderIL.Text

/-- The digits of `n` in base sixteen, lower case, filled up with zeros to `width`. -/
def hex (width n : Nat) : String :=
  let digits := Nat.toDigits 16 n
  String.ofList (List.replicate (width - digits.length) '0' ++ digits)

/-- The escape of one character inside quotes of the kind `mark`. -/
def escape (mark c : Char) : String :=
  if c == mark || c == '\\' then String.ofList ['\\', c]
  else if isPrintable c then String.singleton c
  else match c.toNat with
    | 0x07 => "\\a"
    | 0x08 => "\\b"
    | 0x0c => "\\f"
    | 0x0a => "\\n"
    | 0x0d => "\\r"
    | 0x09 => "\\t"
    | 0x0b => "\\v"
    | n =>
      if n < 0x80 then "\\x" ++ hex 2 n
      else if n < 0x10000 then "\\u" ++ hex 4 n
      else "\\U" ++ hex 8 n

/-- A string between double quotes. -/
def quoted (s : String) : String :=
  "\"" ++ String.join (s.toList.map (escape '"')) ++ "\""

/-- The single quote, code point 39. -/
def singleQuote : Char := Char.ofNat 39

/-- The character of a byte's value between single quotes. -/
def quotedByte (b : UInt8) : String :=
  String.singleton singleQuote ++ escape singleQuote (Char.ofNat b.toNat) ++
    String.singleton singleQuote

end ShaderIL.Text
