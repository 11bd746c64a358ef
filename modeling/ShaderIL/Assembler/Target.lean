import ShaderIL.Text.Case
import ShaderIL.Text.Quoted

/-!
# Program targets and device limits

A program is written for a `Target`; the target decides the first line of the header and where the
position of a work item comes from. A `Device` bounds the resources a program may declare.
-/

namespace ShaderIL

/-- The kind of program. Codes beyond the two known ones are kept as they are. -/
inductive Target where
  | pixel
  | compute
  | other (code : Nat)
  deriving DecidableEq, Repr

namespace Target

/-- The target of a numeric code. -/
def ofCode : Nat → Target
  | 0 => pixel
  | 1 => compute
  | n => other n

/-- The numeric code of a target. -/
def code : Target → Nat
  | pixel => 0
  | compute => 1
  | other n => n

/-- The version line that opens a program. -/
def text : Target → String
  | pixel => "il_ps_2_0"
  | compute => "il_cs_2_0"
  | other n => "il_target(" ++ toString n ++ ")"

/-- The spellings of the two targets, in lower case. -/
def names : Target → List String
  | pixel => ["ps", "il_ps_2_0", "pixel"]
  | compute => ["cs", "il_cs_2_0", "compute"]
  | other _ => []

/-- The target a text names, in any letter case. -/
def parse? (s : String) : Option Target :=
  [pixel, compute].find? fun t => t.names.any (Text.lowersTo s)

/-- The complaint about a text that names no target. -/
def parseMessage (s : String) : String :=
  "invalid IL target: " ++ Text.quoted s ++ " (expected: ps|cs)"

end Target

/-- How many resources a program may declare, and how large a constant buffer may be. -/
structure Device where
  maxInputs : Int := 128
  maxBuffers : Int := 15
  maxBufferSize : Int := 4096
  deriving DecidableEq, Repr

/-- The size of a compute thread group in each direction. -/
structure ThreadGroup where
  x : Int := 64
  y : Int := 1
  z : Int := 1
  deriving DecidableEq, Repr

end ShaderIL
