import ShaderIL.Error
import ShaderIL.Fault
import ShaderIL.Text.Bytes

/-!
# Swizzles

A register has four lanes, named `x`, `y`, `z` and `w`. A `Swizzle` is a list of selectors: position
`i` of the selected value is lane `s[i]` of the value it is applied to. Written down, a swizzle is a
word of one to four letters; `parse` reads it byte by byte, `text` writes it. `compose` applies one
swizzle after another. Selectors past the end of a swizzle read as `x`, so `at?` fails only beyond
the fourth position.
-/

namespace ShaderIL

/-- One of the four lanes of a register. -/
abbrev Lane := Fin 4

namespace Lane

/-- The first lane. -/
def x : Lane := ⟨0, by decide⟩

/-- The second lane. -/
def y : Lane := ⟨1, by decide⟩

/-- The third lane. -/
def z : Lane := ⟨2, by decide⟩

/-- The fourth lane. -/
def w : Lane := ⟨3, by decide⟩

/-- The letters of the four lanes. -/
def letters : List Char := ['x', 'y', 'z', 'w']

/-- The letter of a lane. -/
def letter (l : Lane) : Char := letters.getD l.val 'x'

/-- The lane of a letter's byte. -/
def ofByte? (b : UInt8) : Option Lane :=
  (List.finRange 4).find? fun l => l.letter.toNat == b.toNat

end Lane

/-- Which lanes a value is made of. -/
structure Swizzle where
  lanes : List Lane
  deriving DecidableEq, Repr

namespace Swizzle

/-- The number of selected lanes. -/
def count (s : Swizzle) : Nat := s.lanes.length

/-- The selector at a position; an unset one is `x`. -/
def at? (s : Swizzle) (i : Nat) : Option Lane :=
  if i < 4 then some (s.lanes.getD i .x) else none

/-- The first `n` lanes in order, at most four. -/
def identity (n : Nat) : Swizzle := ⟨(List.finRange 4).take n⟩

/-- One lane `n` times. -/
def broadcast (lane : Lane) (n : Nat) : Swizzle := ⟨List.replicate n lane⟩

/-- The largest selector, zero if there is none. -/
def maxLane (s : Swizzle) : Nat := s.lanes.foldl (fun m l => max m l.val) 0

/-- Every position selects the lane of the same number. -/
def isIdentity (s : Swizzle) : Bool := s == identity s.count

/-- The swizzle that selects with `s` first and with `next` from the result. -/
def compose (s next : Swizzle) : Swizzle := ⟨next.lanes.map fun l => s.lanes.getD l.val .x⟩

/-- The letters of the selectors. -/
def text (s : Swizzle) : String := String.ofList (s.lanes.map Lane.letter)

/-- The lanes of the bytes of a pattern, or the first byte that names none. -/
def lanesOfBytes : List UInt8 → Except UInt8 (List Lane)
  | [] => .ok []
  | b :: bs =>
    match Lane.ofByte? b with
    | none => .error b
    | some l => (lanesOfBytes bs).map (l :: ·)

/-- Read a pattern of one to four lane letters. -/
def parse (pattern : String) : Except Error Swizzle :=
  let bytes := Text.bytes pattern
  if bytes.isEmpty || 4 < bytes.length then .error (.patternLength pattern)
  else
    match lanesOfBytes bytes with
    | .error b => .error (.patternLane pattern b)
    | .ok lanes => .ok ⟨lanes⟩

/-- The lane of a number, taken modulo 256 as selectors are bytes. -/
def laneOf (n : Int) : Except Fault Lane :=
  let n := (n % 256).toNat
  if h : n < 4 then .ok ⟨n, h⟩ else .error .laneRange

/-- The swizzle of `n` selectors given by number. The count is a byte too: a negative one fills
nothing and leaves the selectors unset. More than four selectors, or one beyond the fourth lane,
name no lanes. -/
def ofNumbers (n : Int) (selector : Nat → Int) : Except Fault Swizzle :=
  if 4 < n then .error .laneRange
  else if n < 0 then
    let n := (n % 256).toNat
    if 4 < n then .error .laneRange else .ok (broadcast .x n)
  else (Swizzle.mk ·) <$> (List.range n.toNat).mapM fun i => laneOf (selector i)

end Swizzle

end ShaderIL
