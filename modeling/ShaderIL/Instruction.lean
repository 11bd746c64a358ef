import ShaderIL.Mnemonic
import ShaderIL.Operand

/-!
# Instructions and lines of code

An `Instruction` applies a mnemonic to source operands and writes the lanes of one destination. A
source may carry a negate modifier, `Sign`. The code of a unit is a list of `Line`s: instructions,
flow keywords with or without a condition, and comments. `Line.text` is the only place where code
becomes text; every line ends in a line break, and `Line.breaks` counts the breaks of lines that are
written, which is how instructions are counted.
-/

namespace ShaderIL

/-- The negate modifier of a source operand. -/
inductive Sign where
  | plain
  /-- All four positions are negated. -/
  | negated
  /-- The high words of the doubles are negated. -/
  | highNegated
  deriving DecidableEq, Repr

/-- A place read by an instruction, the lanes it supplies position by position, and its sign. -/
structure SourceOperand where
  place : Place
  lanes : Swizzle
  sign : Sign
  deriving DecidableEq

/-- The negate modifier of a source with that many lanes. -/
def Sign.text (lanes : Nat) : Sign → String
  | plain => ""
  | negated => "_neg(xyzw)"
  | highNegated => if lanes == 4 then "_neg(yw)" else "_neg(y)"

/-- The text of a source operand. -/
def SourceOperand.text (s : SourceOperand) : String :=
  laneText s.place.text s.lanes ++ s.sign.text s.lanes.count

/-- A place written by an instruction and the lanes written there. -/
structure Destination where
  place : Place
  mask : WriteMask
  deriving DecidableEq

/-- The text of a destination; a full mask is left out. -/
def Destination.text (d : Destination) : String :=
  if d.mask == WriteMask.full then d.place.text else d.place.text ++ "." ++ d.mask.text

namespace Operand

/-- The operand as a source with a sign. -/
def signed (o : Operand) (sign : Sign) : SourceOperand := ⟨o.place, o.lanes, sign⟩

/-- The operand as a source. -/
def source (o : Operand) : SourceOperand := o.signed .plain

/-- The operand as a source whose lanes stand where those of `dst` are written. -/
def alignedTo (o dst : Operand) : SourceOperand := ⟨o.place, o.alignedLanes dst, .plain⟩

/-- The operand as a destination. -/
def destination (o : Operand) : Destination := ⟨o.place, o.mask⟩

end Operand

/-- One instruction. -/
structure Instruction where
  mnemonic : Mnemonic
  dst : Destination
  srcs : List SourceOperand
  deriving DecidableEq

/-- The text of an instruction without its line break. -/
def Instruction.text (i : Instruction) : String :=
  i.mnemonic.text ++ " " ++ ",".intercalate (i.dst.text :: i.srcs.map SourceOperand.text)

/-- A flow keyword that stands alone on its line. -/
inductive FlowWord where
  | whileLoop
  | endLoop
  | breakLoop
  | continueLoop
  | elseBranch
  | endIf
  deriving DecidableEq, Repr

/-- The text of a flow keyword. -/
def FlowWord.text : FlowWord → String
  | whileLoop => "whileloop"
  | endLoop => "endloop"
  | breakLoop => "break"
  | continueLoop => "continue"
  | elseBranch => "else"
  | endIf => "endif"

/-- A flow keyword that takes a condition. -/
inductive FlowTest where
  | ifTrue
  | breakTrue
  deriving DecidableEq, Repr

/-- The text of a flow keyword with a condition. -/
def FlowTest.text : FlowTest → String
  | ifTrue => "if_logicalnz"
  | breakTrue => "break_logicalnz"

/-- A line of code. -/
inductive Line where
  | instruction (i : Instruction)
  | word (w : FlowWord)
  | test (t : FlowTest) (condition : SourceOperand)
  | comment (text : String)
  deriving DecidableEq

namespace Line

/-- A text on one line: line breaks become blanks. -/
def flatten (s : String) : String :=
  String.ofList (s.toList.map fun c => if c == '\n' then ' ' else c)

/-- The text of a line with its line break. -/
def text : Line → String
  | instruction i => i.text ++ "\n"
  | word w => w.text ++ "\n"
  | test t c => t.text ++ " " ++ c.text ++ "\n"
  | comment s => "; " ++ flatten s ++ "\n"

/-- The number of line breaks in a text. -/
def countBreaks (s : String) : Nat := s.toList.count '\n'

/-- The number of line breaks in lines of code. -/
def breaks (ls : List Line) : Nat := ls.foldr (fun l n => countBreaks l.text + n) 0

end Line

end ShaderIL
