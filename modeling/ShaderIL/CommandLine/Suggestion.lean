import ShaderIL.Text.Bytes
import ShaderIL.Text.Case

/-!
# Suggestions

For a word that is no command those commands are suggested that start with it or that are at most
two edits away. An edit inserts, deletes or replaces one byte; letter case makes no difference.
-/

namespace ShaderIL

/-- One row of the table of distances: from all starts of a word to the next start of another one.
`corner` and `left` are the entries above to the left and to the left. -/
def distanceRow (c : UInt8) (corner left : Nat) : List UInt8 → List Nat → List Nat
  | d :: ds, above :: row =>
    let here := if c == d then corner else 1 + min left (min above corner)
    here :: distanceRow c above here ds row
  | _, _ => []

/-- The last row of the table of distances. -/
def distanceRows (t : List UInt8) : Nat → List Nat → List UInt8 → List Nat
  | _, row, [] => row
  | i, row, c :: cs =>
    let next := match row with
      | [] => []
      | corner :: rest => (i + 1) :: distanceRow c corner (i + 1) t rest
    distanceRows t (i + 1) next cs

/-- The least number of edits that lead from one word to another. -/
def editDistance (s t : List UInt8) : Nat :=
  (distanceRows t 0 (List.range (t.length + 1)) s).getLastD 0

/-- A word in small letters. -/
def smallLetters (s : String) : String := String.ofList (s.toList.map Text.lowerChar)

/-- The most edits between a word and a suggestion. -/
def suggestionDistance : Nat := 2

/-- A command is worth suggesting for a word. -/
def isSuggested (word command : String) : Bool :=
  let w := Text.bytes (smallLetters word)
  let c := Text.bytes command
  editDistance w c ≤ suggestionDistance || w.isPrefixOf c

end ShaderIL
