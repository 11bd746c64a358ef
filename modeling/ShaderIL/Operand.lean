import ShaderIL.Lane.WriteMask

/-!
# Operands

A `Place` is what an operand's name stands for: a temporary, literal or constant-buffer register, an
element of the global buffer, a position register, or a name given as text. An `Operand` is a place
together with the lanes it selects there and the number of lanes per component. `Operand.text` is
the source form, and `Operand.parseText` reads it back: the letters after the last dot are the lanes,
unless a bracket follows the dot or there is none, in which case the operand takes the leading lanes
of the whole name.
-/

namespace ShaderIL

/-- What the name of an operand stands for. -/
inductive Place where
  | temp (index : Nat)
  | literal (index : Nat)
  | constant (slot index : Int)
  /-- The element of the global buffer at a fixed offset. -/
  | globalAt (offset : Int64)
  /-- The element of the global buffer at an offset from a base operand. -/
  | globalFrom (base : Place) (lanes : Swizzle) (offset : Int64)
  | threadId
  | windowPosition
  | named (text : String)
  deriving DecidableEq

/-- The name of a place with the letters of the lanes selected there; the four lanes in order are
left out. -/
def laneText (name : String) (lanes : Swizzle) : String :=
  if lanes == Swizzle.identity 4 then name else name ++ "." ++ lanes.text

/-- An offset behind a base: nothing for zero, else a sign and the digits. -/
def offsetText (offset : Int64) : String :=
  if 0 < offset then "+" ++ toString offset.toInt
  else if offset < 0 then "-" ++ toString (-offset).toInt
  else ""

/-- The name of a place. -/
def Place.text : Place → String
  | temp n => "r" ++ toString n
  | literal n => "l" ++ toString n
  | constant slot i => "cb" ++ toString slot ++ "[" ++ toString i ++ "]"
  | globalAt offset => "g[" ++ toString offset.toInt ++ "]"
  | globalFrom base lanes offset => "g[" ++ laneText base.text lanes ++ offsetText offset ++ "]"
  | threadId => "vAbsTid0"
  | windowPosition => "vWinCoord0"
  | named text => text

/-- A place, the lanes selected there, and the lanes per component. -/
structure Operand where
  place : Place
  lanes : Swizzle
  width : Nat
  deriving DecidableEq

namespace Operand

/-- The leading lanes of a place, as many as the type takes. -/
def ofType (place : Place) (t : ValueType) : Operand :=
  ⟨place, Swizzle.identity t.lanes, t.laneWidth⟩

/-- The same for a type that may not fit a register. -/
def ofType? (place : Place) (t : ValueType) : Except Fault Operand :=
  if t.lanes ≤ 4 then .ok (ofType place t) else .error .laneRange

/-- The name of the operand's place. -/
def name (o : Operand) : String := o.place.text

/-- The number of components. -/
def components (o : Operand) : Nat := if o.width == 0 then 0 else o.lanes.count / o.width

/-- The positions of the lanes of the components a pattern names, `width` lanes for each. -/
def positions (width : Nat) (p : Swizzle) : List Nat :=
  p.lanes.flatMap fun c => (List.range width).map fun j => c.val * width + j

/-- The operand made of the components a pattern names. -/
def select (o : Operand) (p : Swizzle) : Except Fault Operand :=
  match (positions o.width p).mapM o.lanes.at? with
  | some lanes => if lanes.length ≤ 4 then .ok { o with lanes := ⟨lanes⟩ } else .error .laneRange
  | none => .error .laneRange

/-- One component. -/
def component (o : Operand) (i : Int) : Except Fault Operand := do
  o.select (← Swizzle.ofNumbers 1 fun _ => i)

/-- `n` components from `start` on. -/
def span (o : Operand) (start n : Int) : Except Fault Operand := do
  o.select (← Swizzle.ofNumbers n fun i => start + i)

/-- The first component `n` times. -/
def splat (o : Operand) (n : Int) : Except Fault Operand := do
  o.select (← Swizzle.ofNumbers n fun _ => 0)

/-- The source form. -/
def text (o : Operand) : String := laneText o.name o.lanes

/-- The lanes written when the operand is a destination. -/
def mask (o : Operand) : WriteMask := WriteMask.ofSwizzle o.lanes

/-- The four selectors that put lane `k` of the operand where lane `k` of `dst` is; the other
positions repeat the first lane. -/
def alignedLanes (o dst : Operand) : Swizzle :=
  if dst.lanes.isIdentity || (dst.lanes.count == 1 && o.lanes.count == 1) then o.lanes
  else
    ⟨(dst.lanes.lanes.zip o.lanes.lanes).foldl (fun b (d, s) => b.set d.val s)
      (List.replicate 4 (o.lanes.lanes.getD 0 .x))⟩

/-- The characters before and after the last dot. -/
def splitLastDot? (cs : List Char) : Option (List Char × List Char) :=
  match cs.reverse.span (· != '.') with
  | (_, []) => none
  | (after, _ :: before) => some (before.reverse, after.reverse)

/-- Read a source form as an operand of a type: the name and the lanes. -/
def parseText (text : String) (t : ValueType) : Except Error (String × Swizzle) :=
  match splitLastDot? text.toList with
  | none => .ok (text, Swizzle.identity t.lanes)
  | some (before, after) =>
    if after.any fun c => c == '[' || c == ']' then .ok (text, Swizzle.identity t.lanes)
    else do
      let s ← Swizzle.parse (String.ofList after)
      if s.count == t.lanes then .ok (String.ofList before, s)
      else .error (.operandLanes text s.count t)

/-- The operand a text names, at a place found from the name. -/
def ofText (place : String → Place) (text : String) (t : ValueType) : Except Error Operand := do
  let (name, lanes) ← parseText text t
  .ok ⟨place name, lanes, t.laneWidth⟩

end Operand

end ShaderIL
