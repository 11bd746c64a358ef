/-!
# Phases of a compilation unit
-/

namespace ShaderIL

/-- Where an assembler stands: before its first unit, inside a unit, or after one. -/
inductive Phase where
  | unstarted
  | building
  | finalized
  deriving DecidableEq, Repr

namespace Phase

/-- The name of a phase. -/
def text : Phase → String
  | unstarted => "unstarted"
  | building => "building"
  | finalized => "finalized"

/-- The phase of a numeric code. -/
def ofCode? : Nat → Option Phase
  | 0 => some unstarted
  | 1 => some building
  | 2 => some finalized
  | _ => none

/-- The name of the phase of a numeric code. -/
def codeText (n : Nat) : String := ((ofCode? n).map text).getD "unknown"

end Phase

end ShaderIL
