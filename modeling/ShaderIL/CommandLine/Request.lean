import ShaderIL.CommandLine.Flags
import ShaderIL.CommandLine.Suggestion
import ShaderIL.Kernel.Registry

/-!
# Requests

`Invocation.parse` reads the words of a call. First the command is found: the first word that is
neither a flag nor, as far as that can be told before the command is known, the value of one. Then
the other words are sorted by the flags of that command, and last its arguments are counted.
-/

namespace ShaderIL

/-- The name of the program. -/
def programName : String := "calilc"

/-- The commands. -/
inductive Command where
  | build
  | emit
  | list
  | version
  | help
  | completion
  deriving DecidableEq, Repr

namespace Command

/-- The commands in the order in which they are suggested. -/
def all : List Command := [build, emit, list, version, help, completion]

/-- The word for a command. -/
def name : Command → String
  | build => "build"
  | emit => "emit"
  | list => "list"
  | version => "version"
  | help => "help"
  | completion => "completion"

/-- The command of a word. -/
def ofName? (word : String) : Option Command := all.find? fun c => c.name == word

/-- The commands that are suggested for a word. -/
def suggestions (word : String) : List String :=
  ((all.filter (· != help)).map name).filter (isSuggested word)

end Command

/-! ### Flags -/

/-- The flags of all commands. -/
def commonFlags : List Flag := [⟨"color", none, .text⟩, ⟨"quiet", none, .toggle⟩]

/-- The flag that asks for help. -/
def helpFlag : Flag := ⟨"help", some 'h', .toggle⟩

/-- The flags of a call without a command. -/
def plainFlags : List Flag := commonFlags ++ [helpFlag, ⟨"version", some 'v', .toggle⟩]

/-- The flags of a command. -/
def Command.flags : Command → List Flag
  | build =>
    commonFlags ++ [helpFlag, ⟨"config", none, .text⟩, ⟨"cache", none, .text⟩,
      ⟨"no-cache", none, .toggle⟩, ⟨"jobs", some 'j', .whole⟩]
  | emit =>
    commonFlags ++ [helpFlag, ⟨"output", some 'o', .text⟩, ⟨"target", none, .text⟩,
      ⟨"info", none, .toggle⟩, ⟨"tile-x", none, .whole⟩, ⟨"tile-y", none, .whole⟩,
      ⟨"unroll", none, .whole⟩]
  | list | version | help | completion => commonFlags ++ [helpFlag]

/-! ### Finding the command -/

/-- A word takes the next one for its value, as far as the common flags tell: a flag of more than a
switch, written without an equals sign, that is long or a single letter. -/
def takesNext (s : String) : Bool :=
  if s.toList.contains '=' then false
  else
    match s.toList with
    | '-' :: '-' :: name =>
      !((flagNamed? commonFlags (String.ofList name)).any fun f => !f.needsValue)
    | ['-', c] => c.toNat < 0x80
    | _ => false

/-- The words that are neither flags nor values of flags, up to a flag that takes the last one. -/
def plainWords : List String → List String
  | [] => []
  | s :: rest =>
    if s == "--" then []
    else if takesNext s then
      match rest with
      | _ :: next :: rest => plainWords (next :: rest)
      | _ => []
    else if s.isEmpty || s.toList.head? == some '-' then plainWords rest
    else s :: plainWords rest

/-- The words without the first plain one that equals the given one. -/
def dropWord (word : String) : List String → List String
  | [] => []
  | s :: rest =>
    if s == "--" then s :: rest
    else if takesNext s then
      match rest with
      | value :: rest => s :: value :: dropWord word rest
      | [] => [s]
    else if s.toList.head? != some '-' && s == word then rest
    else s :: dropWord word rest

/-! ### Requests -/

/-- What to build. -/
structure BuildRequest where
  kernels : List String
  config : String
  cache : String
  noCache : Bool
  jobs : Int
  deriving DecidableEq, Repr

/-- What to emit. -/
structure EmitRequest where
  kernel : String
  output : String
  target : String
  info : Bool
  params : Params
  deriving DecidableEq, Repr

/-- What a call asks for. -/
inductive Request where
  | usage
  | versionLine
  | toolVersion
  | list
  | emit (r : EmitRequest)
  | build (r : BuildRequest)
  deriving DecidableEq, Repr

/-- A call. -/
structure Invocation where
  color : String
  quiet : Bool
  request : Request
  deriving DecidableEq, Repr

namespace Command

/-- The full name of a command. -/
def fullName (c : Command) : String := programName ++ " " ++ c.name

/-- The request of a command without arguments. -/
def alone (c : Command) (r : Request) (arguments : List String) : Except UsageError Request :=
  match arguments with
  | [] => .ok r
  | word :: _ => .error (.unknownCommand word c.fullName [])

/-- The request of a command. -/
def request (c : Command) (p : Parsed) : Except UsageError Request :=
  if p.toggle "help" then .ok .usage
  else
    match c with
    | build =>
      .ok (.build
        { kernels := p.arguments, config := p.text "config" "", cache := p.text "cache" "",
          noCache := p.toggle "no-cache", jobs := p.whole "jobs" 0 })
    | emit =>
      match p.arguments with
      | [kernel] =>
        .ok (.emit
          { kernel, output := p.text "output" "", target := p.text "target" "",
            info := p.toggle "info",
            params := ⟨p.whole "tile-x" 8, p.whole "tile-y" 8, p.whole "unroll" 1⟩ })
      | arguments => .error (.argumentCount 1 arguments.length)
    | list => c.alone .list p.arguments
    | version => c.alone .toolVersion p.arguments
    | help | completion => .ok .usage

end Command

namespace Invocation

/-- A call with settings of the common flags. -/
def ofParsed (p : Parsed) (request : Request) : Invocation :=
  ⟨p.text "color" "auto", p.toggle "quiet", request⟩

/-- Read the words of a call. -/
def parse (words : List String) : Except UsageError Invocation :=
  match plainWords words with
  | [] => do
    let p ← parseArguments plainFlags words
    return ofParsed p (if !p.toggle "help" && p.toggle "version" then .versionLine else .usage)
  | word :: _ =>
    match Command.ofName? word with
    | none => .error (.unknownCommand word programName (Command.suggestions word))
    | some c => do
      let p ← parseArguments c.flags (dropWord word words)
      return ofParsed p (← c.request p)

end Invocation

end ShaderIL
