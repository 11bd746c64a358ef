import ShaderIL.Literal

/-!
# Literals by number

A `LiteralTable` numbers bit patterns in the order of their first use. It keeps the number of each
pattern and the patterns by number; a pattern that is there already keeps its number.
-/

namespace ShaderIL

/-- Patterns with their numbers, and in the order of their numbers. -/
structure LiteralTable where
  numbers : List (Quad × Nat) := []
  order : List Quad := []
  deriving DecidableEq

namespace LiteralTable

/-- The number of a pattern, which is the next one if the pattern is new. -/
def number (t : LiteralTable) (bits : Quad) : Nat :=
  match t.numbers.lookup bits with
  | some i => i
  | none => t.order.length

/-- The table with a pattern in it. -/
def add (t : LiteralTable) (bits : Quad) : LiteralTable :=
  match t.numbers.lookup bits with
  | some _ => t
  | none => ⟨(bits, t.order.length) :: t.numbers, t.order ++ [bits]⟩

end LiteralTable

end ShaderIL
