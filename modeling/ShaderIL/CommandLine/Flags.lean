import ShaderIL.CommandLine.Usage

/-!
# Flags and arguments

`parseArguments` sorts the words of a call into settings of flags and arguments. A long flag is
written `--name value` or `--name=value`, a letter `-l value`, `-l=value` or `-lvalue`; letters of
switches may stand together. A switch takes no further word. After `--` all words are arguments.
-/

namespace ShaderIL

/-- The value of a flag. -/
inductive Setting where
  | text (s : String)
  | whole (n : Int)
  | toggle (b : Bool)
  deriving DecidableEq, Repr

/-- Settings in the order in which they were made, and arguments. -/
structure Parsed where
  settings : List (String × Setting) := []
  arguments : List String := []
  deriving DecidableEq, Repr

namespace Parsed

/-- The setting of a flag that was made last. -/
def find? (p : Parsed) (name : String) : Option Setting := p.settings.reverse.lookup name

/-- The text of a flag. -/
def text (p : Parsed) (name otherwise : String) : String :=
  match p.find? name with
  | some (.text s) => s
  | _ => otherwise

/-- The number of a flag. -/
def whole (p : Parsed) (name : String) (otherwise : Int) : Int :=
  match p.find? name with
  | some (.whole n) => n
  | _ => otherwise

/-- The state of a switch. -/
def toggle (p : Parsed) (name : String) : Bool :=
  match p.find? name with
  | some (.toggle b) => b
  | _ => false

end Parsed

/-- The words for the two states of a switch. -/
def toggleValue? (s : String) : Option Bool :=
  if ["1", "t", "T", "TRUE", "true", "True"].contains s then some true
  else if ["0", "f", "F", "FALSE", "false", "False"].contains s then some false
  else none

namespace Flag

/-- The setting that a text makes. -/
def read (f : Flag) (value : String) : Except UsageError (String × Setting) :=
  match f.kind with
  | .text => .ok (f.name, .text value)
  | .whole =>
    match readInteger value with
    | .ok n => .ok (f.name, .whole n)
    | .error e => .error (.invalidValue value f (.integer e))
  | .toggle =>
    match toggleValue? value with
    | some b => .ok (f.name, .toggle b)
    | none => .error (.invalidValue value f .toggle)

/-- The flag needs a value of its own. -/
def needsValue (f : Flag) : Bool := f.kind != .toggle

end Flag

/-- The flag of a name. -/
def flagNamed? (flags : List Flag) (name : String) : Option Flag :=
  flags.find? fun f => f.name == name

/-- The flag of a letter. -/
def flagLettered? (flags : List Flag) (c : Char) : Option Flag :=
  flags.find? fun f => f.letter == some c

/-- A name and what follows its equals sign. -/
def splitEquals : List Char → List Char × Option (List Char)
  | [] => ([], none)
  | c :: cs =>
    if c == '=' then ([], some cs)
    else
      let (name, value) := splitEquals cs
      (c :: name, value)

/-- The first byte of a character. -/
def firstByte (c : Char) : UInt8 := (String.utf8EncodeChar c).headD 0

/-- What letters that stand together say: settings, and the letter that takes the next word. -/
structure Letters where
  settings : List (String × Setting) := []
  waiting : Option (Flag × Char) := none

/-- Letters that start like this say nothing. -/
def ignoredLetters : List Char := "test.".toList

/-- Read letters that stand together. -/
def readLetters (flags : List Flag) : List Char → Except UsageError Letters
  | [] => .ok {}
  | c :: cs =>
    if ignoredLetters.isPrefixOf (c :: cs) then .ok {}
    else
      match flagLettered? flags c with
      | none => .error (.unknownLetter (firstByte c) (String.ofList (c :: cs)))
      | some f =>
        if cs.head? == some '=' && 1 < cs.length then do
          return { settings := [← f.read (String.ofList (cs.drop 1))] }
        else if !f.needsValue then do
          let setting ← f.read "true"
          let letters ← readLetters flags cs
          return { letters with settings := setting :: letters.settings }
        else if cs.isEmpty then .ok { waiting := some (f, c) }
        else do return { settings := [← f.read (String.ofList cs)] }

/-- What a word is. -/
inductive Word where
  | argument
  | dashes
  | long (name : List Char)
  | letters (cs : List Char)

/-- Sort a word. -/
def Word.ofText (s : String) : Word :=
  match s.toList with
  | '-' :: '-' :: [] => .dashes
  | '-' :: '-' :: name => .long name
  | '-' :: c :: cs => .letters (c :: cs)
  | _ => .argument

/-- Sort the words of a call. -/
def parseArguments (flags : List Flag) : List String → Except UsageError Parsed
  | [] => .ok {}
  | s :: rest =>
    match Word.ofText s with
    | .argument => do
      let p ← parseArguments flags rest
      return { p with arguments := s :: p.arguments }
    | .dashes => .ok { arguments := rest }
    | .long text =>
      if text.head? == some '-' || text.head? == some '=' then .error (.badFlag s)
      else
        let (name, value) := splitEquals text
        match flagNamed? flags (String.ofList name), value, rest with
        | none, _, _ => .error (.unknownFlag (String.ofList name))
        | some f, some value, rest => do
          let setting ← f.read (String.ofList value)
          let p ← parseArguments flags rest
          return { p with settings := setting :: p.settings }
        | some f, none, rest =>
          if !f.needsValue then do
            let setting ← f.read "true"
            let p ← parseArguments flags rest
            return { p with settings := setting :: p.settings }
          else
            match rest with
            | [] => .error (.missingValue s)
            | value :: rest => do
              let setting ← f.read value
              let p ← parseArguments flags rest
              return { p with settings := setting :: p.settings }
    | .letters cs => do
      let letters ← readLetters flags cs
      match letters.waiting, rest with
      | none, rest =>
        let p ← parseArguments flags rest
        return { p with settings := letters.settings ++ p.settings }
      | some (_, c), [] => .error (.missingLetterValue (firstByte c) (String.singleton c))
      | some (f, _), value :: rest =>
        let setting ← f.read value
        let p ← parseArguments flags rest
        return { p with settings := letters.settings ++ setting :: p.settings }

end ShaderIL
