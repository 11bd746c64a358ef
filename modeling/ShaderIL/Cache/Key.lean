import ShaderIL.Digest.Sha256
import ShaderIL.Kernel.Registry
import ShaderIL.Text.Bytes

/-!
# Cache keys

A `BuildId` holds everything that decides the text of a program. Its `encoding` writes the parts in
order with a zero character between them, and the key of a build is the digest of that text.
-/

namespace ShaderIL

/-- What decides the text of a program. -/
structure BuildId where
  version : String
  kernel : String
  target : Target
  device : Device
  params : Params
  deriving DecidableEq, Repr

/-- The key of a cache entry. -/
abbrev Key := Sha256.State

namespace BuildId

/-- The parts of a build are separated by the zero character. -/
def separator : String := String.singleton (Char.ofNat 0)

/-- The device limits, separated by commas. -/
def deviceText (d : Device) : String :=
  ",".intercalate [toString d.maxInputs, toString d.maxBuffers, toString d.maxBufferSize]

/-- The parameters, separated by commas. -/
def paramsText (p : Params) : String :=
  ",".intercalate [toString p.tileX, toString p.tileY, toString p.unroll]

/-- The text that is digested. -/
def encoding (b : BuildId) : String :=
  separator.intercalate
    [b.version, b.kernel, toString b.target.code, deviceText b.device, paramsText b.params]

/-- The key of a build. -/
def key (b : BuildId) : Key := Sha256.digest (Text.bytes b.encoding)

end BuildId

/-- The name of the file that holds the entry of a key. -/
def Sha256.State.fileName (k : Key) : String := k.text ++ ".mp.xz"

end ShaderIL
