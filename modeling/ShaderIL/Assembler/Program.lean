import ShaderIL.Assembler.Basic

/-!
# Program text

The text of a closed unit is its header followed by its code. The header names the target and
declares, in this order, the thread group of a compute program, the constant buffers, the inputs,
the window position and the literals. `Assembler.bindings` lists the memory objects to attach.
-/

namespace ShaderIL

/-- What kind of memory object is bound. -/
inductive BindingKind where
  | global
  | input
  | constant
  | other (code : Nat)
  deriving DecidableEq, Repr

namespace BindingKind

/-- The kind of a numeric code. -/
def ofCode : Nat → BindingKind
  | 0 => global
  | 1 => input
  | 2 => constant
  | n => other n

/-- The numeric code of a kind. -/
def code : BindingKind → Nat
  | global => 0
  | input => 1
  | constant => 2
  | other n => n

/-- The name of a kind. -/
def text : BindingKind → String
  | global => "global"
  | input => "input"
  | constant => "constant"
  | other n => "binding(" ++ toString n ++ ")"

end BindingKind

/-- A memory object to attach before a program runs. -/
structure Binding where
  kind : BindingKind
  name : String
  slot : Int
  type : ValueType
  size : Int
  deriving DecidableEq, Repr

/-- The name of the format in which an input of a kind is declared. -/
def Kind.formatText : Kind → String
  | .int => "sint"
  | .uint => "uint"
  | _ => "float"

namespace Draft

/-- The memory objects a draft uses: the global buffer, the inputs, the constant buffers. -/
def bindings (d : Draft) : List Binding :=
  (if d.usesGlobal then [⟨.global, "g[]", 0, .invalid, 0⟩] else []) ++
  d.inputs.entries.map (fun (slot, t) => ⟨.input, "i" ++ toString slot, slot, t, 0⟩) ++
  d.buffers.entries.map (fun (slot, size) =>
    ⟨.constant, "cb" ++ toString slot, slot, .invalid, size⟩)

/-- The declaration of a constant buffer. -/
def bufferLine (slot size : Int) : String :=
  "dcl_cb cb" ++ toString slot ++ "[" ++ toString size ++ "]\n"

/-- The declaration of an input. -/
def inputLine (slot : Int) (t : ValueType) : String :=
  let format := t.kind.formatText
  "dcl_resource_id(" ++ toString slot ++ ")_type(2d,unnorm)_fmtx(" ++ format ++ ")_fmty(" ++
    format ++ ")_fmtz(" ++ format ++ ")_fmtw(" ++ format ++ ")\n"

/-- The declaration of the window position. -/
def positionLine : String :=
  "dcl_input_position_interp(linear_noperspective) vWinCoord0.xy__\n"

/-- A word in eight upper-case hexadecimal digits. -/
def wordText (w : UInt32) : String :=
  "0x" ++ String.ofList ((Text.hex 8 w.toNat).toList.map Char.toUpper)

/-- The declaration of a literal. -/
def literalLine (index : Nat) (bits : Quad) : String :=
  "dcl_literal l" ++ toString index ++ ", " ++ ", ".intercalate (bits.toList.map wordText) ++ "\n"

/-- The declarations of literals numbered from `index` on. -/
def literalLines : Nat → List Quad → List String
  | _, [] => []
  | index, bits :: rest => literalLine index bits :: literalLines (index + 1) rest

end Draft

namespace Assembler

/-- The memory objects the current unit uses. -/
def bindings (s : Assembler) : List Binding := s.draft.bindings

/-- The lines of the header. -/
def headerLines (s : Assembler) : List String :=
  [s.target.text ++ "\n"] ++
  (if s.target == .compute then
    ["dcl_num_thread_per_group " ++ toString s.threads.x ++ "," ++ toString s.threads.y ++ "," ++
      toString s.threads.z ++ "\n"]
  else []) ++
  s.draft.buffers.entries.map (fun (slot, size) => Draft.bufferLine slot size) ++
  s.draft.inputs.entries.map (fun (slot, t) => Draft.inputLine slot t) ++
  (if s.draft.usesPosition then [Draft.positionLine] else []) ++
  Draft.literalLines 0 s.draft.literals.order

/-- The header of a closed unit. -/
def header (s : Assembler) : String :=
  if s.phase == .finalized then String.join s.headerLines else ""

/-- The code of a closed unit. -/
def code (s : Assembler) : String :=
  if s.phase == .finalized then String.join (s.draft.code.toList.map Line.text) ++ "end\n" else ""

/-- The program of a closed unit without errors. -/
def program (s : Assembler) : Except Report String :=
  if s.phase != .finalized then .error (.single (.wrongPhase "program" s.phase))
  else
    match s.report with
    | some r => .error r
    | none => .ok (s.header ++ s.code)

end Assembler

end ShaderIL
