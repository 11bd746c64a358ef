import ShaderIL.Operation.Logic

/-!
# Conversions and merging

`Kind.conversion` gives the instruction that turns one kind into another. Conversions to and from
doubles work on one component at a time, the others on whole registers. Booleans convert to nothing
else, and integers of either sign share their bits. Merging puts the components of two operands side
by side in the first one's kind; each half is written by its own instructions, so the halves of the
destination never mix.
-/

namespace ShaderIL

/-- The instruction that converts a kind, and whether it works one component at a time. -/
def Kind.conversion (target source : Kind) : Option (Mnemonic × Bool) :=
  match target, source with
  | .bool, .bool => some (.mov, false)
  | .bool, _ | _, .bool => none
  | .float, .int => some (.itof, false)
  | .float, .uint => some (.utof, false)
  | .int, .float => some (.ftoi, false)
  | .uint, .float => some (.ftou, false)
  | .int, .uint | .uint, .int => some (.mov, false)
  | .float, .double => some (.d2f, true)
  | .double, .float => some (.f2d, true)
  | .double, .int => some (.itod, true)
  | .double, .uint => some (.utod, true)
  | .int, .double => some (.dtoi, true)
  | .uint, .double => some (.dtou, true)
  | t, s => if t == s then some (.mov, false) else none

namespace Overload

/-- Convert each component to the kind of the target type. -/
def cast (target source : ValueType) : Option Overload :=
  if target.components != source.components then none
  else
    match target.kind.conversion source.kind with
    | none => none
    | some (mnemonic, false) => some (unaryDirect (.convert .cast) source target mnemonic)
    | some (mnemonic, true) =>
      some { op := .convert .cast, args := [source], result := target,
             single := target.components == 1,
             body := (List.range target.components).map fun i => .perComponent mnemonic 1 i }

/-- Read the lanes of the operand as another type of as many lanes. -/
def bitcast (target source : ValueType) : Option Overload :=
  if target.lanes == source.lanes then
    some (unaryDirect (.convert .bitcast) source target .mov)
  else none

/-- The components of the first operand followed by those of the second. -/
def merge (low high : ValueType) : Option Overload :=
  let result := ValueType.vector low.kind ((low.components + high.components : Nat) : Int)
  if result.valid then
    match low.kind.conversion high.kind with
    | none => none
    | some (mnemonic, perComponent) =>
      let lowHalf : Pattern := ⟨.mov, .resultSpan 0 low.components, [.aligned (.source 0)]⟩
      let highHalf : List Pattern :=
        if perComponent then
          (List.range high.components).map fun i =>
            ⟨mnemonic, .resultComponent (low.components + i), [.component (.source 1) i]⟩
        else [⟨mnemonic, .resultSpan low.components high.components, [.aligned (.source 1)]⟩]
      some { op := .binary .merge, args := [low, high], result, single := false,
             body := lowHalf :: highHalf }
  else none

end Overload

end ShaderIL
