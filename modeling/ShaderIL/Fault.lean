/-!
# Faults

Most refusals are errors that an assembler records. A `Fault` is different: the request has no
answer at all, because it reads an operand that is not there or a lane beyond the four of a
register. Functions that can be asked for such a thing return in `Except Fault`.
-/

namespace ShaderIL

/-- A request that has no answer. -/
inductive Fault where
  /-- The type of an absent expression was needed. -/
  | absentOperand
  /-- A lane beyond the four of a register was named. -/
  | laneRange
  /-- An instruction pattern refers to an operand that was not supplied. -/
  | operandRange
  /-- An operation without an overload was to be emitted. -/
  | unresolved
  deriving DecidableEq, Repr

end ShaderIL
