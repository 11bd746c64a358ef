import ShaderIL.Assembler.LiteralTable
import ShaderIL.Assembler.SlotTable
import ShaderIL.Fault
import ShaderIL.Instruction

/-!
# Drafts

A `Draft` is what a compilation unit has accumulated: the number of registers taken, the lines of
code, the number of instructions, the literals, and the resources used. Emission runs in the monad
`Emit`, which threads a draft and may fault. Its steps are `Draft.alloc`, which takes the next
register, `Draft.intern`, which finds or adds a literal, and `Draft.writeAll`, which appends
instructions. Lines that are written are counted by their line breaks; a comment is not.
-/

namespace ShaderIL

/-- The accumulated output of a unit. -/
structure Draft where
  next : Nat := 0
  code : Array Line := #[]
  instructions : Nat := 0
  literals : LiteralTable := {}
  inputs : SlotTable ValueType := {}
  buffers : SlotTable Int := {}
  usesGlobal : Bool := false
  usesPosition : Bool := false

/-- Emission into a draft. -/
abbrev Emit := StateT Draft (Except Fault)

namespace Draft

/-- The draft with lines of code, which are counted. -/
def written (d : Draft) (ls : List Line) : Draft :=
  { d with code := d.code ++ ls, instructions := d.instructions + Line.breaks ls }

/-- The draft with a comment, which is not counted. -/
def remarked (d : Draft) (text : String) : Draft := { d with code := d.code.push (.comment text) }

/-- Take the next register for a value of a type. -/
def alloc (t : ValueType) : Emit Operand :=
  modifyGet fun d => (Operand.ofType (.temp d.next) t, { d with next := d.next + 1 })

/-- Take `n` registers for values of a type. -/
def allocMany (t : ValueType) : Nat → Emit (List Operand)
  | 0 => pure []
  | n + 1 => do
    let o ← alloc t
    return o :: (← allocMany t n)

/-- Append instructions. -/
def writeAll (is : List Instruction) : Emit Unit :=
  modify fun d => d.written (is.map Line.instruction)

/-- The literal register of a pattern. -/
def intern (bits : Quad) : Emit Place :=
  modifyGet fun d =>
    (.literal (d.literals.number bits), { d with literals := d.literals.add bits })

/-- Declare an input. -/
def useInput (slot : Int) (t : ValueType) : Emit Unit :=
  modify fun d => { d with inputs := d.inputs.insert slot t }

/-- Declare a constant buffer. -/
def useBuffer (slot size : Int) : Emit Unit :=
  modify fun d => { d with buffers := d.buffers.insert slot size }

/-- Note the use of the global buffer. -/
def useGlobal : Emit Unit := modify fun d => { d with usesGlobal := true }

/-- Note the use of the window position. -/
def usePosition : Emit Unit := modify fun d => { d with usesPosition := true }

end Draft

end ShaderIL
