import ShaderIL.Operation.Table

/-!
# Lane patterns, operands and overloads written down

`LaneTerm` and `OperandTerm` describe swizzles and operands by the calls that make them. A call can
be refused with an error, as a pattern that cannot be read, or have no answer at all; `Refusal`
keeps the two apart. `Overload.listing` shows the instructions of an overload on operands named
after their slots.
-/

namespace ShaderIL.Script

/-- Why a written call yields nothing. -/
inductive Refusal where
  | fault (f : Fault)
  | error (e : Error)
  deriving DecidableEq

/-- A fault as a refusal. -/
def faulting {α : Type} : Except Fault α → Except Refusal α
  | .ok a => .ok a
  | .error f => .error (.fault f)

/-- An error as a refusal. -/
def erring {α : Type} : Except Error α → Except Refusal α
  | .ok a => .ok a
  | .error e => .error (.error e)

/-- A swizzle written down. -/
inductive LaneTerm where
  | letters (pattern : String)
  | identity (n : Int)
  | broadcast (lane n : Int)

/-- The swizzle of a lane term. -/
def LaneTerm.build : LaneTerm → Except Refusal Swizzle
  | letters pattern => erring (Swizzle.parse pattern)
  | identity n => faulting (Swizzle.ofNumbers n fun i => i)
  | broadcast lane n => faulting (Swizzle.ofNumbers n fun _ => lane)

/-- The swizzles after each link of a chain of selections, and the refusal that ends it. -/
def foldChain (start : Option Swizzle) : List LaneTerm → List Swizzle × Option Refusal
  | [] => ([], none)
  | t :: ts =>
    match t.build with
    | .error r => ([], some r)
    | .ok next =>
      let s := match start with
        | some s => s.compose next
        | none => next
      let (rest, refusal) := foldChain (some s) ts
      (s :: rest, refusal)

/-- A selection from an operand. -/
inductive OperandCall where
  | component (i : Int)
  | span (start n : Int)
  | splat (n : Int)
  | select (p : LaneTerm)

/-- An operand written down: a named register of a type and selections from it. -/
structure OperandTerm where
  name : String
  type : ValueType
  calls : List OperandCall

namespace OperandTerm

/-- Carry out a selection. -/
def apply (o : Operand) : OperandCall → Except Refusal Operand
  | .component i => faulting (o.component i)
  | .span start n => faulting (o.span start n)
  | .splat n => faulting (o.splat n)
  | .select p => do
    let s ← p.build
    faulting (o.select s)

/-- The operand of an operand term. -/
def build (t : OperandTerm) : Except Refusal Operand := do
  let o ← faulting (Operand.ofType? (.named t.name) t.type)
  t.calls.foldlM apply o

end OperandTerm

/-- The text of instructions, one per line. -/
def instructionsText (is : List Instruction) : String :=
  String.join (is.map fun i => (Line.instruction i).text)

/-- Source operands named `a`, `b`, `c` at the types of the operands. -/
def namedSources (args : List ValueType) : List Operand :=
  (["a", "b", "c"].zip args).map fun (name, t) => Operand.ofType (.named name) t

end ShaderIL.Script

namespace ShaderIL.Overload

/-- The instructions of an overload on operands named after their slots: `d` for the result, `a`,
`b`, `c` for the sources and `t0`, `t1`, … for the scratch registers. -/
def listing (f : Overload) : Except Fault String := do
  let scratch := (List.range f.scratch).map fun i =>
    Operand.ofType (.named ("t" ++ toString i)) f.result
  return Script.instructionsText
    (← f.emit (Operand.ofType (.named "d") f.result) (Script.namedSources f.args) scratch)

end ShaderIL.Overload
