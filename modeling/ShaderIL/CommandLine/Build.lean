import ShaderIL.BuildFile
import ShaderIL.CommandLine.Shell
import ShaderIL.CommandLine.Style
import ShaderIL.Files.Nearest

/-!
# Building kernels

`buildKernel` writes the program of one kernel: the cached one if the cache has an entry for the
very same build, otherwise a freshly compiled one, which is then put into the cache. An entry that
cannot be read is reported and counts as missing. `buildAll` builds kernels in order and stops at
the first that fails.
-/

namespace ShaderIL

variable {m : Type → Type} [Monad m] [Shell m]

/-- Why a command fails. -/
inductive CommandError where
  | usage (e : UsageError)
  | search (file : Path) (cause : FileCause)
  | buildFile (path : String) (e : BuildFileError)
  | file (e : FileError)
  | openCache (cause : String)
  | unknownKernel
  | unlisted (name : String)
  | target (text : String)
  | compile (e : CompileError)
  | fault (f : Fault)
  | kernel (name : String) (e : CommandError)
  deriving DecidableEq, Repr

/-- The text of a failure. -/
def CommandError.message : CommandError → String
  | usage e => e.message
  | search path cause => Nearest.failureMessage path cause
  | buildFile path e => e.message path
  | file e => e.message
  | openCache cause => "open cache: " ++ cause
  | unknownKernel => "unknown kernel"
  | unlisted name => "unknown kernel " ++ Text.quoted name ++ " (see calilc list)"
  | target text => Target.parseMessage text
  | compile e => e.message
  | fault _ => "internal fault"
  | kernel name e => name ++ ": " ++ e.message

/-- Write a line to the log. -/
def logLine (s : String) : m Unit :=
  Shell.printError (programName ++ ": " ++ s ++ if s.toList.getLast? == some '\n' then "" else "\n")

/-! ### The cache directory -/

/-- The file of a key in a cache directory. -/
def entryPath (cache : String) (k : Key) : Path :=
  ((Path.ofText cache).append "kernels").push k.fileName

/-- The entry of a key in a cache directory, or why it cannot be read. -/
def readEntry (cache : Option String) (k : Key) : m (Except String (Option Entry)) :=
  match cache with
  | none => return .ok none
  | some directory => do
    match ← Shell.readFile (entryPath directory k).text with
    | .error ⟨_, _, .notFound⟩ => return .ok none
    | .error e => return .error e.message
    | .ok stored =>
      match stored.read with
      | .error e => return .error (e.message k)
      | .ok entry => return .ok entry

/-- Put an entry into a cache directory. -/
def writeEntry (cache : Option String) (k : Key) (e : Entry) : m (Except FileError Unit) :=
  match cache with
  | none => return .ok ()
  | some directory => do
    let path := entryPath directory k
    match ← Shell.makeDirectories path.parent.text with
    | .error e => return .error e
    | .ok () => Shell.writeFile path.text (.entry e.stamped)

/-! ### Kernels -/

/-- What a kernel is built for. -/
def BuildFile.options (c : BuildFile) (k : Kernel) : Options :=
  { target := c.target.getD k.target, device := c.device }

/-- What decides the program of a kernel. -/
def BuildFile.buildId (c : BuildFile) (k : Kernel) : BuildId :=
  let o := c.options k
  ⟨version, k.name, o.target, o.device, c.params⟩

/-- The file that a kernel's program goes to. -/
def BuildFile.output (c : BuildFile) (name : String) : Path :=
  (Path.ofText c.out).append (name ++ ".il")

/-- Compile a kernel, write its program, and put it into the cache. -/
def buildFresh (c : BuildFile) (cache : Option String) (k : Kernel) :
    m (Except CommandError Bool) :=
  match compileKernel k.name c.params (c.options k) with
  | .error f => return .error (.fault f)
  | .ok (.error e) => return .error (.compile e)
  | .ok (.ok compiled) => do
    match ← Shell.writeFile (c.output k.name).text (.text compiled.text) with
    | .error e => return .error (.file e)
    | .ok () =>
      match ← writeEntry cache (c.buildId k).key (.ofCompiled k.name compiled) with
      | .error e => return .error (.file e)
      | .ok () => return .ok false

/-- Build a kernel; the answer says whether its program came from the cache. -/
def buildKernel (style : Style) (c : BuildFile) (cache : Option String) (name : String) :
    m (Except CommandError Bool) :=
  match Registry.shipped.find? name with
  | none => return .error .unknownKernel
  | some k => do
    match ← readEntry cache (c.buildId k).key with
    | .ok (some e) =>
      match ← Shell.writeFile (c.output name).text (.text e.program) with
      | .error e => return .error (.file e)
      | .ok () => return .ok true
    | .ok none => buildFresh c cache k
    | .error cause =>
      logLine (style.yellow "warning" ++ " " ++ name ++ ": " ++ cause)
      buildFresh c cache k

/-- The word for how a kernel was built, in a column of its own. -/
def statusWord (style : Style) (cached : Bool) : String :=
  padRight 8 (if cached then style.cyan "cached" else style.green "built")

/-- Build kernels in order up to the first that fails. -/
def buildAll (style : Style) (quiet : Bool) (c : BuildFile) (cache : Option String) :
    List String → m (Except CommandError Unit)
  | [] => return .ok ()
  | name :: rest => do
    let start ← Shell.now
    match ← buildKernel style c cache name with
    | .error e => return .error (.kernel name e)
    | .ok cached =>
      if !quiet then
        let time ← Shell.elapsed start
        logLine (statusWord style cached ++ " " ++ name ++ " (" ++ time ++ ")")
      buildAll style quiet c cache rest

end ShaderIL
