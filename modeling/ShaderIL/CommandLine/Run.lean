import ShaderIL.CommandLine.Build

/-!
# Running commands

`runWords` carries out a call: it reads the words, does what they ask for, reports a failure on the
error output, and gives the exit code.
-/

namespace ShaderIL

variable {m : Type → Type} [Monad m] [Shell m]

/-! ### Listing and emitting -/

/-- The table of kernels. -/
def listing (style : Style) : String :=
  alignRows (Registry.shipped.kernels.map fun k =>
    (style.boldCyan k.name, k.target.text, k.description))

/-- Log what a program takes and what must be bound. -/
def logInfo (name : String) (c : Compiled) : m Unit := do
  logLine (name ++ ": " ++ c.target.text ++ ", " ++ toString c.registers ++ " registers, " ++
    toString c.literals ++ " literals, " ++ toString c.instructions ++ " instructions")
  c.bindings.forM fun b => logLine (name ++ ":   " ++ padRight 8 b.kind.text ++ " " ++ b.name)

/-- The target of a kernel unless another one is named. -/
def emitTarget (k : Kernel) (text : String) : Except CommandError Target :=
  if text.isEmpty then .ok k.target
  else
    match Target.parse? text with
    | some t => .ok t
    | none => .error (.target text)

/-- The program that is to be emitted. -/
def emitProgram (r : EmitRequest) : Except CommandError (Kernel × Compiled) := do
  let k ← match Registry.shipped.find? r.kernel with
    | some k => .ok k
    | none => .error (.unlisted r.kernel)
  let target ← emitTarget k r.target
  match compileKernel k.name r.params { target } with
  | .error f => .error (.fault f)
  | .ok (.error e) => .error (.compile e)
  | .ok (.ok compiled) => .ok (k, compiled)

/-- Emit a program to a file or to the standard output. -/
def runEmit (r : EmitRequest) : m (Except CommandError Unit) :=
  match emitProgram r with
  | .error e => return .error e
  | .ok (k, compiled) => do
    if r.info then logInfo k.name compiled
    if r.output.isEmpty then
      Shell.print compiled.text
      return .ok ()
    else
      match ← Shell.writeFile r.output (.text compiled.text) with
      | .error e => return .error (.file e)
      | .ok () => return .ok ()

/-! ### Building -/

/-- The build file at a path, over the defaults. -/
def loadBuildFile (defaults : BuildFile) (path : String) : m (Except CommandError BuildFile) := do
  let parsed : Except BuildFileError BuildFile := match ← Shell.readFile path with
    | .error e => .error (.unreadable e.message)
    | .ok (.text s) => BuildFile.parse defaults path s
    | .ok _ => .error .malformed
  match parsed with
  | .error e => return .error (.buildFile path e)
  | .ok c => return .ok c

/-- The build file of a call: the named one, or else the nearest one, or else the defaults. -/
def findBuildFile (config : String) : m (Except CommandError BuildFile) := do
  let defaults := BuildFile.default (← Shell.processors)
  if !config.isEmpty then loadBuildFile defaults config
  else
    let directory := Path.ofText (← Shell.workingDirectory)
    match ← nearest (fun file => Shell.status file.text) BuildFile.fileName directory with
    | .failed file cause => return .error (.search file cause)
    | .nowhere => return .ok defaults
    | .found file => loadBuildFile defaults file.text

/-- The cache directory that a call names, or the user's. -/
def cacheDirectory (r : BuildRequest) : m (Except String String) := do
  if !r.cache.isEmpty then return .ok r.cache
  else
    match ← Shell.cacheHome with
    | .error cause => return .error cause
    | .ok home => return .ok ((Path.ofText home).append "calil").text

/-- The cache directory of a call, which is made if it is not there. -/
def openCache (r : BuildRequest) : m (Except CommandError (Option String)) := do
  if r.noCache then return .ok none
  else
    match ← cacheDirectory r with
    | .error cause => return .error (.openCache cause)
    | .ok directory =>
      match ← Shell.makeDirectories directory with
      | .error e => return .error (.openCache e.message)
      | .ok () => return .ok (some directory)

/-- Build what a call asks for. -/
def runBuild (style : Style) (quiet : Bool) (r : BuildRequest) : m (Except CommandError Unit) := do
  match ← findBuildFile r.config with
  | .error e => return .error e
  | .ok c =>
    match ← openCache r with
    | .error e => return .error e
    | .ok cache =>
      match ← Shell.makeDirectories c.out with
      | .error e => return .error (.file e)
      | .ok () =>
        buildAll style quiet c cache (if r.kernels.isEmpty then c.kernels else r.kernels)

/-! ### Calls -/

/-- How the program is called. -/
def usageText : String :=
  "calilc builds GPU kernels written with the calil DSL into AMD CAL IL programs\n\n" ++
  "Usage:\n  calilc [command]\n\nAvailable Commands:\n" ++
  "  build       Compile kernels into the output directory\n" ++
  "  emit        Compile one kernel and print its IL\n" ++
  "  list        List registered kernels\n" ++
  "  version     Show the calilc version\n"

/-- Carry out a request. -/
def runRequest (style : Style) (quiet : Bool) : Request → m (Except CommandError Unit)
  | .usage => do Shell.print usageText; return .ok ()
  | .versionLine => do
    Shell.print (programName ++ " version " ++ version ++ "\n")
    return .ok ()
  | .toolVersion => do
    Shell.print (programName ++ " " ++ style.boldGreen version ++ "\n")
    return .ok ()
  | .list => do Shell.print (listing style); return .ok ()
  | .emit r => runEmit r
  | .build r => runBuild style quiet r

/-- Report a failure. -/
def reportFailure (style : Style) (e : CommandError) : m Nat := do
  logLine (style.red "error: " ++ e.message)
  return 1

/-- Carry out a call and give the exit code. -/
def runWords (words : List String) : m Nat := do
  match Invocation.parse words with
  | .error e => reportFailure .plain (.usage e)
  | .ok call =>
    let style := Style.ofWord call.color (← Shell.terminal)
    match ← runRequest style call.quiet call.request with
    | .error e => reportFailure style e
    | .ok () => return 0

end ShaderIL
