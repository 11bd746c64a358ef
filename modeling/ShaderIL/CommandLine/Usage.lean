import ShaderIL.CommandLine.Integer
import ShaderIL.Text.Quoted

/-!
# Mistakes on the command line

A `Flag` is an option with a value: a text, an integer, or a switch. `UsageError` lists what can be
wrong with the arguments of a call.
-/

namespace ShaderIL

/-- What a flag holds. -/
inductive FlagKind where
  | text
  | whole
  | toggle
  deriving DecidableEq, Repr

/-- A flag with its name and, perhaps, a letter. -/
structure Flag where
  name : String
  letter : Option Char
  kind : FlagKind
  deriving DecidableEq, Repr

/-- The name of a flag in messages. -/
def Flag.label (f : Flag) : String :=
  match f.letter with
  | some c => "-" ++ String.singleton c ++ ", --" ++ f.name
  | none => "--" ++ f.name

/-- Why a text is no value of a flag. -/
inductive ValueError where
  | integer (cause : IntegerError)
  | toggle
  deriving DecidableEq, Repr

/-- The text of a refused value. -/
def ValueError.message (value : String) : ValueError → String
  | integer .malformed => "strconv.ParseInt: parsing " ++ Text.quoted value ++ ": invalid syntax"
  | integer .outOfRange =>
    "strconv.ParseInt: parsing " ++ Text.quoted value ++ ": value out of range"
  | toggle => "strconv.ParseBool: parsing " ++ Text.quoted value ++ ": invalid syntax"

/-- What is wrong with the arguments of a call. -/
inductive UsageError where
  | unknownCommand (word program : String) (suggestions : List String)
  | argumentCount (expected given : Nat)
  | badFlag (text : String)
  | unknownFlag (name : String)
  | unknownLetter (byte : UInt8) (letters : String)
  | missingValue (text : String)
  | missingLetterValue (byte : UInt8) (letters : String)
  | invalidValue (value : String) (flag : Flag) (cause : ValueError)
  deriving DecidableEq, Repr

namespace UsageError

/-- The lines that suggest commands. -/
def suggestionText (suggestions : List String) : String :=
  if suggestions.isEmpty then ""
  else "\n\nDid you mean this?\n" ++ String.join (suggestions.map fun s => "\t" ++ s ++ "\n")

/-- The text of a mistake. -/
def message : UsageError → String
  | unknownCommand word program suggestions =>
    "unknown command " ++ Text.quoted word ++ " for " ++ Text.quoted program ++
      suggestionText suggestions
  | argumentCount expected given =>
    "accepts " ++ toString expected ++ " arg(s), received " ++ toString given
  | badFlag text => "bad flag syntax: " ++ text
  | unknownFlag name => "unknown flag: --" ++ name
  | unknownLetter byte letters =>
    "unknown shorthand flag: " ++ Text.quotedByte byte ++ " in -" ++ letters
  | missingValue text => "flag needs an argument: " ++ text
  | missingLetterValue byte letters =>
    "flag needs an argument: " ++ Text.quotedByte byte ++ " in -" ++ letters
  | invalidValue value flag cause =>
    "invalid argument " ++ Text.quoted value ++ " for " ++ Text.quoted flag.label ++ " flag: " ++
      cause.message value

end UsageError

end ShaderIL
