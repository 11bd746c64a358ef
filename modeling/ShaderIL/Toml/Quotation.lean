import ShaderIL.Text.Quoted
import ShaderIL.Toml.Value

/-!
# TOML strings

A string stands on one line between single marks or over several lines between triple ones. Between
double quotes a backslash escapes, between single quotes every character stands for itself. A string
over several lines drops a line break right after its opening mark, and may end with up to two marks
of its own before the closing three.

`quotation` reads a string of any of the four forms, `name?` the part of a key. `Path.text` writes a
path, with quotes around the names that need them.
-/

namespace ShaderIL.Toml

/-- A character of a line break. -/
def isNewline (c : Char) : Bool := c == '\n' || c == '\r'

/-- A blank within a line. -/
def isBlank (c : Char) : Bool := c == ' ' || c == '\t'

/-- The value of a digit in base sixteen. -/
def hexDigit? (c : Char) : Option Nat :=
  if c.isDigit then some (c.toNat - '0'.toNat)
  else if 'a' ≤ c && c ≤ 'f' then some (c.toNat - 'a'.toNat + 10)
  else if 'A' ≤ c && c ≤ 'F' then some (c.toNat - 'A'.toNat + 10)
  else none

/-! ### Escapes -/

/-- The character an escape of one letter stands for. -/
def letterEscape? (c : Char) : Option Char :=
  match c with
  | 'b' => some (Char.ofNat 0x08)
  | 't' => some '\t'
  | 'n' => some '\n'
  | 'f' => some (Char.ofNat 0x0c)
  | 'r' => some '\r'
  | '"' => some '"'
  | '\\' => some '\\'
  | _ => none

/-- The character of a code point in base sixteen. -/
def codePoint? (digits : List Char) : Option Char := do
  let n := (← digits.mapM hexDigit?).foldl (fun n d => 16 * n + d) 0
  if n.isValidChar then return Char.ofNat n else none

/-- The blanks and line breaks at the front hold a line break. -/
def breaksLine (cs : List Char) : Bool :=
  (cs.takeWhile fun c => isBlank c || isNewline c).contains '\n'

/-- A string with its escapes resolved. Over several lines a backslash before the end of a line
drops all blanks up to the next character; `skipping` holds while that is under way. -/
def unescape (severalLines skipping : Bool) : List Char → Option (List Char)
  | [] => some []
  | c :: cs =>
    if skipping && (isBlank c || isNewline c) then unescape severalLines true cs
    else if c == '\\' then
      match cs with
      | 'u' :: a :: b :: d :: e :: rest => do
        let x ← codePoint? [a, b, d, e]
        return x :: (← unescape severalLines false rest)
      | 'U' :: a :: b :: d :: e :: f :: g :: h :: i :: rest => do
        let x ← codePoint? [a, b, d, e, f, g, h, i]
        return x :: (← unescape severalLines false rest)
      | d :: rest =>
        match letterEscape? d with
        | some x => (unescape severalLines false rest).map (x :: ·)
        | none =>
          if severalLines && breaksLine (d :: rest) && (isBlank d || isNewline d) then
            unescape severalLines true rest
          else none
      | [] => none
    else (unescape severalLines false cs).map (c :: ·)

/-! ### Finding the end -/

/-- The characters up to a closing double quote on the same line, and the rest. -/
def basicLine : List Char → Option (List Char × List Char)
  | [] => none
  | c :: cs =>
    if c == '"' then some ([], cs)
    else if isNewline c then none
    else if c == '\\' then
      match cs with
      | [] => none
      | d :: rest =>
        if isNewline d then none else (basicLine rest).map fun (s, r) => (c :: d :: s, r)
    else (basicLine cs).map fun (s, r) => (c :: s, r)

/-- The characters up to a closing single quote on the same line, and the rest. -/
def literalLine : List Char → Option (List Char × List Char)
  | [] => none
  | c :: cs =>
    if c == Text.singleQuote then some ([], cs)
    else if isNewline c then none
    else (literalLine cs).map fun (s, r) => (c :: s, r)

/-- What follows two marks. -/
def afterTwo? (mark : Char) : List Char → Option (List Char)
  | c :: d :: rest => if c == mark && d == mark then some rest else none
  | _ => none

/-- Two marks were read just before, and no backslash stands before them. -/
def crowded (mark : Char) : List Char → Bool
  | c :: d :: e :: _ => c == mark && d == mark && !(mark == '"' && e == '\\')
  | [c, d] => c == mark && d == mark
  | _ => false

/-- The characters up to three closing marks, and the rest. What was read so far is kept backwards.
Of a longer run of marks the last three close the string, and a run of six is refused. -/
def block (mark : Char) (read : List Char) : List Char → Option (List Char × List Char)
  | [] => none
  | c :: cs =>
    if c == mark then
      match afterTwo? mark cs with
      | none => block mark (c :: read) cs
      | some rest =>
        if rest.head? == some mark then
          if crowded mark read then none else block mark (c :: read) cs
        else some (read.reverse, rest)
    else if c == '\\' && mark == '"' then
      match cs with
      | [] => none
      | d :: rest => block mark (d :: c :: read) rest
    else block mark (c :: read) cs

/-- The characters without a line break at the front. -/
def dropNewline : List Char → List Char
  | '\n' :: cs => cs
  | '\r' :: '\n' :: cs => cs
  | cs => cs

/-! ### Strings -/

/-- A string between double quotes, without the opening one. -/
def basicString (cs : List Char) : Option (String × List Char) := do
  match afterTwo? '"' cs with
  | some rest =>
    let (s, rest) ← block '"' [] rest
    return (String.ofList (← unescape true false (dropNewline s)), rest)
  | none =>
    let (s, rest) ← basicLine cs
    return (String.ofList (← unescape false false s), rest)

/-- A string between single quotes, without the opening one. -/
def literalString (cs : List Char) : Option (String × List Char) := do
  match afterTwo? Text.singleQuote cs with
  | some rest =>
    let (s, rest) ← block Text.singleQuote [] rest
    return (String.ofList (dropNewline s), rest)
  | none =>
    let (s, rest) ← literalLine cs
    return (String.ofList s, rest)

/-- A string at the front, and the rest. -/
def quotation : List Char → Option (String × List Char)
  | c :: cs =>
    if c == '"' then basicString cs
    else if c == Text.singleQuote then literalString cs
    else none
  | [] => none

/-- The name at the front of a key, and the rest. A quoted name stands on one line. -/
def name? : List Char → Option (String × List Char)
  | [] => none
  | c :: cs =>
    if c == '"' then do
      let (s, rest) ← basicLine cs
      return (String.ofList (← unescape false false s), rest)
    else if c == Text.singleQuote then do
      let (s, rest) ← literalLine cs
      return (String.ofList s, rest)
    else if isBare c then
      some (String.ofList (c :: cs.takeWhile isBare), cs.dropWhile isBare)
    else none

/-! ### Writing paths -/

/-- A character between double quotes. -/
def escapeChar (c : Char) : String :=
  match c with
  | '"' => "\\\""
  | '\\' => "\\\\"
  | '\t' => "\\t"
  | '\n' => "\\n"
  | '\r' => "\\r"
  | c =>
    if c.toNat == 0x08 then "\\b"
    else if c.toNat == 0x0c then "\\f"
    else if c.toNat < 0x20 || c.toNat == 0x7f then "\\u" ++ Text.hex 4 c.toNat
    else String.singleton c

/-- A name, between quotes if it is empty or has a character that is not bare. -/
def nameText (s : String) : String :=
  if !s.isEmpty && s.toList.all isBare then s
  else "\"" ++ String.join (s.toList.map escapeChar) ++ "\""

/-- The names of a path with points between them. -/
def Path.text (p : Path) : String := ".".intercalate (p.map nameText)

end ShaderIL.Toml
