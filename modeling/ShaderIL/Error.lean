import ShaderIL.Assembler.Phase
import ShaderIL.Number.Shortest
import ShaderIL.Operation.Opcode
import ShaderIL.Text.Quoted

/-!
# Errors

`Error` lists the causes for which an expression, a statement or a unit is refused. `Error.kind`
sorts them into seven families and `Error.detail` gives the wording; `Error.message` puts the family
in front. Statements that check a whole tree report every error they find: a `Report` is one error
or such a list, and `Report.message` shows a list of one like the error itself.
-/

namespace ShaderIL

/-- The families of errors. -/
inductive ErrorKind where
  | typeMismatch
  | swizzle
  | constantRange
  | address
  | state
  | flowControl
  | resourceLimit
  | other (code : Nat)
  deriving DecidableEq, Repr

namespace ErrorKind

/-- The family of a numeric code. -/
def ofCode : Nat → ErrorKind
  | 0 => typeMismatch
  | 1 => swizzle
  | 2 => constantRange
  | 3 => address
  | 4 => state
  | 5 => flowControl
  | 6 => resourceLimit
  | n => other n

/-- The name of a family. -/
def text : ErrorKind → String
  | typeMismatch => "TypeMismatch"
  | swizzle => "Swizzle"
  | constantRange => "ConstantRange"
  | address => "Address"
  | state => "State"
  | flowControl => "FlowControl"
  | resourceLimit => "ResourceLimit"
  | other _ => "Unknown"

end ErrorKind

/-- Why a host constant has no bit pattern of a kind. -/
inductive LiftError where
  | outOfRange
  | overflow (value : FloatValue)
  | noEncoding (kind : Kind)
  deriving DecidableEq, Repr

/-- The wording of a lifting error; the last two carry their own family. -/
def LiftError.detail : LiftError → String
  | outOfRange => "out of range"
  | overflow v => "il " ++ ErrorKind.constantRange.text ++ ": " ++ largeDoubleText v ++
      " overflows float"
  | noEncoding k => "il " ++ ErrorKind.typeMismatch.text ++ ": no literal encoding for " ++ k.text

/-- The cause of a refusal. -/
inductive Error where
  /-- A conversion was asked for without a type to convert to. -/
  | needsTarget (op : Opcode)
  | operandCount (op : Opcode) (given : Nat)
  | noOverload (op : Opcode) (args : List ValueType)
  | notConversion (op : Opcode)
  | noConversion (op : Opcode) (source target : ValueType)
  | externalType (text : String)
  | literalType
  | literalCount (type : ValueType) (given : Nat)
  | literalRange (type : ValueType) (cause : LiftError)
  | absentExpression
  | absentTarget
  | assignTypes (source target : ValueType)
  | inputType (slot : Int) (type : ValueType)
  | coordinateType (type : ValueType)
  | globalType
  | positionType (type : ValueType)
  | variableType
  | conditionType (statement : String) (type : ValueType)
  | patternLength (pattern : String)
  | patternLane (pattern : String) (byte : UInt8)
  | patternBeyond (pattern : String) (type : ValueType)
  | patternWidth (pattern : String) (type : ValueType) (count : Nat)
  | broadcastCount (count : Int)
  | maskLength (mask : String)
  | maskLane (mask : String) (byte : UInt8)
  | maskRepeated (mask : String) (byte : UInt8)
  | operandLanes (text : String) (given : Nat) (type : ValueType)
  | lanesBeyond (mask : String) (type : ValueType)
  | absentAddress
  | addressType (type : ValueType)
  | elementRange (index slot size : Int)
  | variableHomeless (type : ValueType)
  | variableForeign (type : ValueType) (register : String)
  | alreadyBuilding
  | notBuilding (phase : Phase)
  | wrongPhase (statement : String) (phase : Phase)
  | absentKernel
  | strayEndLoop
  | outsideLoop (statement : String)
  | strayElse
  | strayEndIf
  | unterminated (count : Nat) (block : String)
  | inputSlot (slot : Int)
  | bufferShape (slot size : Int)
  | inputLimit (slot limit : Int)
  | bufferLimit (slot limit : Int)
  | bufferSizeLimit (slot size limit : Int)
  /-- An error noted by a caller, with its family and wording. -/
  | noted (kind : ErrorKind) (detail : String)
  deriving DecidableEq, Repr

namespace Error

/-- The family of an error. -/
def kind : Error → ErrorKind
  | needsTarget .. | operandCount .. | noOverload .. | notConversion .. | noConversion ..
  | externalType .. | literalType | literalCount .. | absentExpression | absentTarget
  | assignTypes .. | inputType .. | coordinateType .. | globalType | positionType ..
  | variableType | conditionType .. => .typeMismatch
  | patternLength .. | patternLane .. | patternBeyond .. | patternWidth .. | broadcastCount ..
  | maskLength .. | maskLane .. | maskRepeated .. | operandLanes .. | lanesBeyond .. => .swizzle
  | literalRange .. => .constantRange
  | absentAddress | addressType .. | elementRange .. => .address
  | variableHomeless .. | variableForeign .. | alreadyBuilding | notBuilding .. | wrongPhase ..
  | absentKernel => .state
  | strayEndLoop | outsideLoop .. | strayElse | strayEndIf | unterminated .. => .flowControl
  | inputSlot .. | bufferShape .. | inputLimit .. | bufferLimit .. | bufferSizeLimit .. =>
    .resourceLimit
  | noted k _ => k

/-- The wording of an error without its family. -/
def detail : Error → String
  | needsTarget op => op.text ++ " needs a target type, use ResolveConversion"
  | operandCount op given =>
    op.text ++ " takes " ++ toString op.arity ++ " operands, got " ++ toString given
  | noOverload op args => op.signature args ++ ": no matching functor"
  | notConversion op => op.text ++ " is not a conversion"
  | noConversion op source target =>
    op.text ++ " " ++ source.text ++ " to " ++ target.text ++ ": no matching functor"
  | externalType text => "named operand " ++ Text.quoted text ++ ": invalid type"
  | literalType => "literal: invalid type"
  | literalCount t given =>
    "literal " ++ t.text ++ " needs " ++ toString t.components ++ " values, got " ++
      toString given
  | literalRange t cause => "literal " ++ t.text ++ ": " ++ cause.detail
  | absentExpression => "nil expression"
  | absentTarget => "assignment to nil target"
  | assignTypes source target => "cannot assign " ++ source.text ++ " to " ++ target.text
  | inputType slot t => "input i" ++ toString slot ++ " cannot hold " ++ t.text
  | coordinateType t =>
    "sample coordinate must be " ++ ValueType.float2.text ++ ", got " ++ t.text
  | globalType => "global buffer of invalid type"
  | positionType t => "global id cannot be " ++ t.text
  | variableType => "variable of invalid type"
  | conditionType statement t =>
    statement ++ ": condition must be " ++ ValueType.bool1.text ++ ", got " ++ t.text
  | patternLength pattern =>
    "swizzle " ++ Text.quoted pattern ++ " must select 1 to 4 components"
  | patternLane pattern byte =>
    "swizzle " ++ Text.quoted pattern ++ ": invalid component " ++ Text.quotedByte byte
  | patternBeyond pattern t => "swizzle " ++ Text.quoted pattern ++ " selects beyond " ++ t.text
  | patternWidth pattern t count =>
    "swizzle " ++ Text.quoted pattern ++ " of " ++ t.text ++ " yields " ++ toString count ++
      " components"
  | broadcastCount count => "cannot broadcast to " ++ toString count ++ " components"
  | maskLength mask => "write mask " ++ Text.quoted mask ++ " must name 1 to 4 lanes"
  | maskLane mask byte =>
    "write mask " ++ Text.quoted mask ++ ": invalid lane " ++ Text.quotedByte byte
  | maskRepeated mask byte =>
    "write mask " ++ Text.quoted mask ++ ": lane " ++ Text.quotedByte byte ++ " repeated"
  | operandLanes text given t =>
    "operand " ++ Text.quoted text ++ " selects " ++ toString given ++ " lanes, " ++ t.text ++
      " needs " ++ toString t.lanes
  | lanesBeyond mask t => "lanes " ++ Text.quoted mask ++ " exceed " ++ t.text
  | absentAddress => "address of nil expression"
  | addressType t => "address must be a scalar int, uint or float, got " ++ t.text
  | elementRange index slot size =>
    "constant buffer element " ++ toString index ++ " outside cb" ++ toString slot ++ "[" ++
      toString size ++ "]"
  | variableHomeless t =>
    "variable " ++ t.text ++ " was declared outside a compilation unit"
  | variableForeign t register =>
    "variable " ++ t.text ++ " " ++ register ++ " belongs to another compilation unit"
  | alreadyBuilding => "begin: compilation unit already in progress"
  | notBuilding phase =>
    "end: no compilation unit in progress (state " ++ phase.text ++ ")"
  | wrongPhase statement phase => statement ++ ": source is " ++ phase.text
  | absentKernel => "kernel is nil"
  | strayEndLoop => "endloop without matching whileloop"
  | outsideLoop statement => statement ++ " outside a loop"
  | strayElse => "else without matching if"
  | strayEndIf => "endif without matching if"
  | unterminated count block =>
    toString count ++ " unterminated " ++ block ++ " block(s)"
  | inputSlot slot => "input slot " ++ toString slot ++ " is negative"
  | bufferShape slot size =>
    "constant buffer cb" ++ toString slot ++ "[" ++ toString size ++
      "] is empty or misnumbered"
  | inputLimit slot limit =>
    "input i" ++ toString slot ++ " exceeds " ++ toString limit ++ " input slots"
  | bufferLimit slot limit =>
    "constant buffer cb" ++ toString slot ++ " exceeds " ++ toString limit ++ " buffers"
  | bufferSizeLimit slot size limit =>
    "constant buffer cb" ++ toString slot ++ " size " ++ toString size ++ " exceeds " ++
      toString limit
  | noted _ detail => detail

/-- The full text of an error. -/
def message (e : Error) : String := "il " ++ e.kind.text ++ ": " ++ e.detail

/-- The text of a list of errors: one per line below their number, a single one as it is. -/
def listMessage : List Error → String
  | [e] => e.message
  | es => toString es.length ++ " errors:" ++ String.join (es.map fun e => "\n\t" ++ e.message)

end Error

/-- What a refused statement leaves behind. -/
inductive Report where
  | single (error : Error)
  | several (errors : List Error)
  deriving DecidableEq, Repr

namespace Report

/-- The text of a report. -/
def message : Report → String
  | single e => e.message
  | several es => Error.listMessage es

end Report

end ShaderIL
