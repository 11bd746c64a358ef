import ShaderIL.Lane.Swizzle

/-!
# Write masks

A `WriteMask` says which lanes of its destination an instruction writes. Bit `i` of the mask stands
for lane `i`; written down, a mask has four places with a lane's letter or an underscore.
-/

namespace ShaderIL

/-- A set of lanes, one bit for each. -/
structure WriteMask where
  bits : Nat
  deriving DecidableEq, Repr

namespace WriteMask

/-- The mask with no lane. -/
def empty : WriteMask := ⟨0⟩

/-- The mask with all four lanes. -/
def full : WriteMask := ⟨15⟩

/-- The lane is written. -/
def has (m : WriteMask) (l : Lane) : Bool := m.bits.testBit l.val

/-- The mask with one more lane. -/
def insert (m : WriteMask) (l : Lane) : WriteMask := ⟨m.bits ||| 1 <<< l.val⟩

/-- The mask of the lanes a swizzle selects. -/
def ofSwizzle (s : Swizzle) : WriteMask := s.lanes.foldl insert empty

/-- The lanes of a mask in ascending order. -/
def lanes (m : WriteMask) : List Lane := (List.finRange 4).filter m.has

/-- The number of lanes of a mask. -/
def count (m : WriteMask) : Nat := m.lanes.length

/-- The swizzle that selects the lanes of a mask in ascending order. -/
def swizzle (m : WriteMask) : Swizzle := ⟨m.lanes⟩

/-- The four places of a mask. -/
def text (m : WriteMask) : String :=
  String.ofList ((List.finRange 4).map fun l => if m.has l then l.letter else '_')

/-- Add the lanes named by the bytes of `mask`. -/
def insertBytes (mask : String) : List UInt8 → WriteMask → Except Error WriteMask
  | [], m => .ok m
  | b :: bs, m =>
    match Lane.ofByte? b with
    | none => .error (.maskLane mask b)
    | some l =>
      if m.has l then .error (.maskRepeated mask b) else insertBytes mask bs (m.insert l)

/-- Read a mask of one to four different lane letters. -/
def parse (mask : String) : Except Error WriteMask :=
  let bytes := Text.bytes mask
  if bytes.isEmpty || 4 < bytes.length then .error (.maskLength mask)
  else insertBytes mask bytes empty

end WriteMask

end ShaderIL
