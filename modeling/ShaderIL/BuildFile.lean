import ShaderIL.Kernel.Registry
import ShaderIL.Text.Blank
import ShaderIL.Text.Case
import ShaderIL.Toml.Document

/-!
# Build files

A `BuildFile` says which kernels to build, for what, and where to. It is read from a TOML document
over the defaults. The names of groups and fields are known in any letter case, but only a key in
the very spelling of a field sets it. A document is refused if a field has a value of the wrong
shape, if a key is not known, or if a value makes no sense.
-/

namespace ShaderIL

/-- What to build. -/
structure BuildFile where
  /-- The file this was read from, empty for the defaults. -/
  path : String
  /-- The target of all kernels, if it is not each kernel's own. -/
  target : Option Target
  out : String
  jobs : Int
  kernels : List String
  device : Device
  params : Params
  deriving DecidableEq, Repr

/-- Why a build file is refused. -/
inductive BuildFileError where
  /-- The file could not be read. -/
  | unreadable (cause : String)
  /-- The text is no TOML document, or a field has a value of the wrong shape. -/
  | malformed
  | unknownKey (key : Toml.Path)
  | target (text : String)
  | emptyOut
  | noJobs
  | unknownKernel (name : String)
  deriving DecidableEq, Repr

/-- The wording of a refusal. -/
def BuildFileError.detail : BuildFileError → String
  | unreadable cause => "failed to parse TOML: " ++ cause
  | malformed => "failed to parse TOML: invalid document"
  | unknownKey key => "unknown key " ++ key.text
  | target text => "[build].target: " ++ Target.parseMessage text
  | emptyOut => "[build].out is empty"
  | noJobs => "[build].jobs must be at least 1"
  | unknownKernel name => "[build].kernels: unknown kernel " ++ Text.quoted name

/-- The text of a refusal of a file. -/
def BuildFileError.message (path : String) (e : BuildFileError) : String := path ++ ": " ++ e.detail

namespace BuildFile

/-- The name under which build files are looked for. -/
def fileName : String := "calil.toml"

/-- Without a build file every shipped kernel is built, one job for each processor. -/
def default (processors : Nat) : BuildFile :=
  { path := "", target := none, out := "build", jobs := processors,
    kernels := Registry.shipped.names, device := {}, params := {} }

/-! ### Fields -/

/-- What a field holds. -/
inductive Shape where
  | text
  | whole
  | texts
  deriving DecidableEq, Repr

/-- A value is a string. -/
def isText : Toml.Value → Bool
  | .string _ => true
  | _ => false

/-- A value has a shape. -/
def Shape.accepts : Shape → Toml.Value → Bool
  | text, .string _ => true
  | whole, .integer _ => true
  | texts, .array vs => vs.all isText
  | _, _ => false

/-- The fields of a group. -/
def fieldsOf : String → List (String × Shape)
  | "build" => [("target", .text), ("out", .text), ("jobs", .whole), ("kernels", .texts)]
  | "device" =>
    [("max_inputs", .whole), ("max_constant_buffers", .whole),
      ("max_constant_buffer_size", .whole)]
  | "params" => [("tile_x", .whole), ("tile_y", .whole), ("unroll", .whole)]
  | _ => []

/-- The groups of fields. -/
def groups : List String := ["build", "device", "params"]

/-- The name among several that a key denotes: the same one, or one equal up to letter case. -/
def denoted? (names : List String) (key : String) : Option String :=
  if names.contains key then some key else names.find? (Text.foldsTo key)

/-- The group that a key denotes. -/
def group? (key : String) : Option String := denoted? groups key

/-- The shape of the field that a key denotes in a group. -/
def shape? (group key : String) : Option Shape := do
  let name ← denoted? ((fieldsOf group).map Prod.fst) key
  (fieldsOf group).lookup name

/-- The fields of a group have values of their shapes. -/
def groupFits (group : String) : Toml.Value → Bool
  | .table t => t.all fun (key, v) => (shape? group key).all fun s => s.accepts v
  | _ => false

/-- All fields have values of their shapes. -/
def fits (d : Toml.Document) : Bool :=
  d.root.all fun (key, v) => (group? key).all fun g => groupFits g v

/-- A key denotes a group or a field. -/
def known (d : Toml.Document) : Toml.Path → Bool
  | [key] => (group? key).isSome && (d.root.find? key).isSome
  | [key, name] =>
    ((group? key).bind fun g => shape? g name).isSome && (d.find? key name).isSome
  | _ => false

/-! ### Reading -/

/-- The target, with blanks around its name left out. -/
def readTarget (d : Toml.Document) : Except BuildFileError (Option Target) :=
  match d.find? "build" "target" with
  | some (.string s) =>
    match Target.parse? (Text.trim s) with
    | some t => .ok (some t)
    | none => .error (.target (Text.trim s))
  | _ => .ok none

/-- The output directory. -/
def readOut (d : Toml.Document) (otherwise : String) : Except BuildFileError String :=
  match d.find? "build" "out" with
  | some (.string s) => if (Text.trim s).isEmpty then .error .emptyOut else .ok s
  | _ => .ok otherwise

/-- The number of jobs. -/
def readJobs (d : Toml.Document) (otherwise : Int) : Except BuildFileError Int :=
  match d.find? "build" "jobs" with
  | some (.integer n) => if n < 1 then .error .noJobs else .ok n
  | _ => .ok otherwise

/-- The strings of a list of values. -/
def texts (vs : List Toml.Value) : List String :=
  vs.filterMap fun
    | .string s => some s
    | _ => none

/-- The kernels. -/
def readKernels (d : Toml.Document) (otherwise : List String) :
    Except BuildFileError (List String) :=
  match d.find? "build" "kernels" with
  | some (.array vs) =>
    match (texts vs).find? fun name => (Registry.shipped.find? name).isNone with
    | some name => .error (.unknownKernel name)
    | none => .ok (texts vs)
  | _ => .ok otherwise

/-- A whole number. -/
def readInt (d : Toml.Document) (group name : String) (otherwise : Int) : Int :=
  match d.find? group name with
  | some (.integer n) => n
  | _ => otherwise

/-- The limits of the device. -/
def readDevice (d : Toml.Document) (otherwise : Device) : Device :=
  ⟨readInt d "device" "max_inputs" otherwise.maxInputs,
    readInt d "device" "max_constant_buffers" otherwise.maxBuffers,
    readInt d "device" "max_constant_buffer_size" otherwise.maxBufferSize⟩

/-- The parameters of the kernels. -/
def readParams (d : Toml.Document) (otherwise : Params) : Params :=
  ⟨readInt d "params" "tile_x" otherwise.tileX, readInt d "params" "tile_y" otherwise.tileY,
    readInt d "params" "unroll" otherwise.unroll⟩

/-- The build file of a document, over the defaults. -/
def ofDocument (defaults : BuildFile) (path : String) (d : Toml.Document) :
    Except BuildFileError BuildFile :=
  if !fits d then .error .malformed
  else
    match d.keys.find? fun key => !known d key with
    | some key => .error (.unknownKey key)
    | none => do
      let target ← readTarget d
      let out ← readOut d defaults.out
      let jobs ← readJobs d defaults.jobs
      let kernels ← readKernels d defaults.kernels
      return { path, target, out, jobs, kernels, device := readDevice d defaults.device,
               params := readParams d defaults.params }

/-- The build file of a text that a decoder makes a document of, over the defaults. -/
def parseWith (decode : String → Option Toml.Document) (defaults : BuildFile) (path text : String) :
    Except BuildFileError BuildFile :=
  match decode text with
  | some d => ofDocument defaults path d
  | none => .error .malformed

/-- The build file of a text, over the defaults. -/
def parse (defaults : BuildFile) (path text : String) : Except BuildFileError BuildFile :=
  parseWith Toml.Document.parse? defaults path text

end BuildFile

end ShaderIL
