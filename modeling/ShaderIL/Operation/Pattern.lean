import ShaderIL.Instruction

/-!
# Instruction patterns

What an operation emits is fixed before its operands are known. A `Pattern` is one such line: it
names the operand slots of the operation (its result, its sources, its scratch registers) and the
parts of them it uses. `Pattern.instantiate` fills in the operands; it faults if the pattern asks
for an operand that was not supplied or for a lane that a register does not have.
-/

namespace ShaderIL

/-- A slot a pattern can read. -/
inductive Slot where
  | source (i : Nat)
  | scratch (i : Nat)
  deriving DecidableEq, Repr

/-- What a pattern writes. -/
inductive PatternTarget where
  | result
  | resultComponent (i : Nat)
  | resultSpan (start n : Nat)
  | scratch (i : Nat)
  deriving DecidableEq, Repr

/-- What a pattern reads. -/
inductive PatternSource where
  | whole (slot : Slot) (sign : Sign)
  | component (slot : Slot) (i : Nat)
  /-- The slot with its lanes moved to where the pattern's target is written. -/
  | aligned (slot : Slot)
  deriving DecidableEq, Repr

/-- One line of an operation. -/
structure Pattern where
  mnemonic : Mnemonic
  target : PatternTarget
  sources : List PatternSource
  deriving DecidableEq, Repr

/-- The operands that fill the slots of an operation. -/
structure Operands where
  result : Operand
  sources : List Operand
  scratch : List Operand
  deriving DecidableEq

namespace Operands

/-- The operand in a slot. -/
def read (o : Operands) (slot : Slot) : Except Fault Operand :=
  let found := match slot with
    | .source i => o.sources[i]?
    | .scratch i => o.scratch[i]?
  match found with
  | some x => .ok x
  | none => .error .operandRange

/-- The operand a pattern writes. -/
def target (o : Operands) : PatternTarget → Except Fault Operand
  | .result => .ok o.result
  | .resultComponent i => o.result.component i
  | .resultSpan start n => o.result.span start n
  | .scratch i => o.read (.scratch i)

/-- The source a pattern reads when it writes `dst`. -/
def source (o : Operands) (dst : Operand) : PatternSource → Except Fault SourceOperand
  | .whole slot sign => do return (← o.read slot).signed sign
  | .component slot i => do return (← (← o.read slot).component i).source
  | .aligned slot => do return (← o.read slot).alignedTo dst

end Operands

namespace Pattern

/-- The instruction of a pattern with its slots filled. -/
def instantiate (p : Pattern) (o : Operands) : Except Fault Instruction := do
  let dst ← o.target p.target
  let srcs ← p.sources.mapM (o.source dst)
  return ⟨p.mnemonic, dst.destination, srcs⟩

/-- One instruction on whole operands: the first `n` sources in order. -/
def direct (mnemonic : Mnemonic) (n : Nat) : Pattern :=
  ⟨mnemonic, .result, (List.range n).map fun i => .whole (.source i) .plain⟩

/-- One instruction on component `i` of the result and of the first `n` sources. -/
def perComponent (mnemonic : Mnemonic) (n i : Nat) : Pattern :=
  ⟨mnemonic, .resultComponent i, (List.range n).map fun s => .component (.source s) i⟩

end Pattern

end ShaderIL
