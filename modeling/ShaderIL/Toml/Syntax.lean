import ShaderIL.Toml.Moment
import ShaderIL.Toml.Number

/-!
# TOML syntax

`items?` reads a text as a list of items: table headers, headers of arrays of tables, and
assignments of a written value (`Term`) to a key. Whether the items fit together is decided later.

Control characters are refused everywhere, apart from the tabulator, the line feed, and a carriage
return before a line feed. A byte order mark at the front is skipped.
-/

namespace ShaderIL.Toml

/-- A value as it is written. -/
inductive Term where
  | scalar (v : Value)
  | array (elements : List Term)
  | inline (fields : List (Path × Term))

/-- A line of a document. -/
inductive Item where
  | table (key : Path)
  | row (key : Path)
  | assign (key : Path) (value : Term)

/-- The characters without blanks at the front. -/
def skipBlanks (cs : List Char) : List Char := cs.dropWhile isBlank

/-- The characters without blanks, line breaks and comments at the front. -/
def skipSpace (comment : Bool) : List Char → List Char
  | [] => []
  | c :: cs =>
    if comment then skipSpace (c != '\n') cs
    else if isBlank c || isNewline c then skipSpace false cs
    else if c == '#' then skipSpace true cs
    else c :: cs

/-- A key at the front with points between its names, and the rest. -/
def key? : Nat → List Char → Option (Path × List Char)
  | 0, _ => none
  | fuel + 1, cs => do
    let (name, rest) ← name? (skipBlanks cs)
    match skipBlanks rest with
    | '.' :: rest =>
      let (path, rest) ← key? fuel rest
      return (name :: path, rest)
    | rest => return ([name], rest)

/-- A number or a moment at the front, and the rest. -/
def numeral? (cs : List Char) : Option (Value × List Char) :=
  match cs with
  | '+' :: rest => signed? '+' rest
  | '-' :: rest => signed? '-' rest
  | '0' :: c :: rest =>
    match base? c with
    | some base => based? base rest
    | none => unsigned? cs
  | _ => unsigned? cs
where
  /-- A date needs more than a lone zero before its first mark. -/
  unsigned? (cs : List Char) : Option (Value × List Char) :=
    let digits := cs.takeWhile Char.isDigit
    let marked := (cs.dropWhile Char.isDigit).head?.any fun c => c == '-' || c == ':'
    if marked && digits != ['0'] then moment? cs else decimal? [] cs

/-- A value without parts at the front, and the rest. -/
def scalar? (cs : List Char) : Option (Value × List Char) :=
  match cs with
  | 't' :: 'r' :: 'u' :: 'e' :: rest => some (.boolean true, rest)
  | 'f' :: 'a' :: 'l' :: 's' :: 'e' :: rest => some (.boolean false, rest)
  | c :: _ =>
    if c == '"' || c == Text.singleQuote then
      (quotation cs).map fun (s, rest) => (.string s, rest)
    else if c.isDigit || c == '+' || c == '-' then numeral? cs
    else word? cs
  | [] => none

mutual

/-- A value at the front, and the rest. -/
def term? : Nat → List Char → Option (Term × List Char)
  | 0, _ => none
  | fuel + 1, cs =>
    match skipBlanks cs with
    | '[' :: rest => (elements? fuel rest).map fun (ts, rest) => (.array ts, rest)
    | '\x7b' :: rest =>
      match skipBlanks rest with
      | '\x7d' :: rest => some (.inline [], rest)
      | rest => (fields? fuel rest).map fun (fs, rest) => (.inline fs, rest)
    | cs => (scalar? cs).map fun (v, rest) => (.scalar v, rest)

/-- The elements of an array up to its end, and the rest. A comma may follow the last one. -/
def elements? : Nat → List Char → Option (List Term × List Char)
  | 0, _ => none
  | fuel + 1, cs =>
    match skipSpace false cs with
    | ']' :: rest => some ([], rest)
    | cs => do
      let (t, rest) ← term? fuel cs
      match skipSpace false rest with
      | ',' :: rest =>
        let (ts, rest) ← elements? fuel rest
        return (t :: ts, rest)
      | ']' :: rest => return ([t], rest)
      | _ => none

/-- The fields of a table on one line up to its end, and the rest. No comma follows the last one. -/
def fields? : Nat → List Char → Option (List (Path × Term) × List Char)
  | 0, _ => none
  | fuel + 1, cs => do
    let (key, rest) ← key? (cs.length + 1) cs
    match rest with
    | '=' :: rest =>
      let (t, rest) ← term? fuel rest
      match skipBlanks rest with
      | ',' :: rest =>
        let (fs, rest) ← fields? fuel rest
        return ((key, t) :: fs, rest)
      | '\x7d' :: rest => return ([(key, t)], rest)
      | _ => none
    | _ => none

end

/-- An item at the front, and the rest of its line. -/
def item? (cs : List Char) : Option (Item × List Char) :=
  match cs with
  | '[' :: '[' :: rest => do
    let (key, rest) ← key? (rest.length + 1) rest
    match rest with
    | ']' :: ']' :: rest => return (.row key, rest)
    | _ => none
  | '[' :: rest => do
    let (key, rest) ← key? (rest.length + 1) rest
    match rest with
    | ']' :: rest => return (.table key, rest)
    | _ => none
  | cs => do
    let (key, rest) ← key? (cs.length + 1) cs
    match rest with
    | '=' :: rest =>
      let (t, rest) ← term? (2 * rest.length + 2) rest
      return (.assign key t, rest)
    | _ => none

/-- The rest after the end of a line, which holds no more than blanks and a comment. -/
def lineEnd? (cs : List Char) : Option (List Char) :=
  match skipBlanks cs with
  | [] => some []
  | c :: rest => if c == '#' || isNewline c then some (c :: rest) else none

/-- The items of a list of lines. -/
def lines? : Nat → List Char → Option (List Item)
  | 0, _ => none
  | fuel + 1, cs =>
    match skipSpace false cs with
    | [] => some []
    | cs => do
      let (item, rest) ← item? cs
      let rest ← lineEnd? rest
      return item :: (← lines? fuel rest)

/-- No control character but those of blanks and line breaks. -/
def controlsFit : List Char → Bool
  | [] => true
  | '\r' :: rest => rest.head? == some '\n' && controlsFit rest
  | c :: rest =>
    (c == '\t' || c == '\n' || (0x20 ≤ c.toNat && c.toNat != 0x7f)) && controlsFit rest

/-- The characters without a byte order mark at the front. -/
def dropMark : List Char → List Char
  | c :: cs => if c.toNat == 0xfeff then cs else c :: cs
  | [] => []

/-- The items of a text. -/
def items? (text : String) : Option (List Item) :=
  let cs := dropMark text.toList
  if controlsFit cs then lines? (cs.length + 1) cs else none

end ShaderIL.Toml
