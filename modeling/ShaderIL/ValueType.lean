/-!
# Value types

A value is a short vector of components of one `Kind`. A `ValueType` pairs the kind with the number
of components; `valid` says which pairs a register can hold. A register has four 32-bit lanes and a
double takes two of them, so doubles come alone or in pairs, everything else in ones, twos and
fours. `catalog` lists the standard types, those the operation table is built over; a kind outside
the five standard ones can be declared, moved and selected from, but no operation accepts it.
-/

namespace ShaderIL

/-- What a component is. `other` stands for the codes no standard kind uses. -/
inductive Kind where
  | invalid
  | int
  | uint
  | float
  | double
  | bool
  | other (code : Nat)
  deriving DecidableEq, Repr

namespace Kind

/-- The kind of a numeric code. -/
def ofCode : Nat → Kind
  | 0 => invalid
  | 1 => int
  | 2 => uint
  | 3 => float
  | 4 => double
  | 5 => bool
  | n => other n

/-- The numeric code of a kind. -/
def code : Kind → Nat
  | invalid => 0
  | int => 1
  | uint => 2
  | float => 3
  | double => 4
  | bool => 5
  | other n => n

/-- The name of a kind; a kind that is not standard has no name of its own. -/
def text : Kind → String
  | int => "int"
  | uint => "uint"
  | float => "float"
  | double => "double"
  | bool => "bool"
  | invalid | other _ => "invalid"

/-- Signed or unsigned integers. -/
def isInteger : Kind → Bool
  | int | uint => true
  | _ => false

/-- Single or double precision. -/
def isFloating : Kind → Bool
  | float | double => true
  | _ => false

/-- One of the five kinds the operation table knows. -/
def isStandard : Kind → Bool
  | invalid | other _ => false
  | _ => true

/-- The number of 32-bit lanes one component takes. -/
def laneWidth : Kind → Nat
  | double => 2
  | _ => 1

end Kind

/-- The type of a value: a kind and a number of components. -/
structure ValueType where
  kind : Kind
  components : Nat
  deriving DecidableEq, Repr

namespace ValueType

/-- The type of an expression that could not be typed. -/
def invalid : ValueType := ⟨.invalid, 0⟩

/-- A register can hold a value of this type. -/
def valid (t : ValueType) : Bool :=
  match t.components with
  | 1 | 2 => t.kind != .invalid
  | 4 => t.kind != .invalid && t.kind != .double
  | _ => false

/-- A valid type of a standard kind. -/
def standard (t : ValueType) : Bool :=
  t.valid && t.kind.isStandard

/-- The number of 32-bit lanes of one component. -/
def laneWidth (t : ValueType) : Nat := t.kind.laneWidth

/-- The number of 32-bit lanes of the whole value. -/
def lanes (t : ValueType) : Nat := t.components * t.laneWidth

/-- One component of the type. -/
def scalar (t : ValueType) : ValueType := ⟨t.kind, 1⟩

/-- The type of `n` components of a kind, `invalid` if there is none. -/
def vector (kind : Kind) (n : Int) : ValueType :=
  if 1 ≤ n && n ≤ 4 && (⟨kind, n.toNat⟩ : ValueType).valid then ⟨kind, n.toNat⟩ else invalid

/-- The type of another kind with as many components. -/
def withKind (t : ValueType) (kind : Kind) : ValueType :=
  vector kind t.components

/-- The name of a type, the kind's name followed by the number of components. -/
def text (t : ValueType) : String :=
  if t.valid then t.kind.text ++ toString t.components else "invalid"

def int1 : ValueType := ⟨.int, 1⟩

def int2 : ValueType := ⟨.int, 2⟩

def int4 : ValueType := ⟨.int, 4⟩

def uint1 : ValueType := ⟨.uint, 1⟩

def uint2 : ValueType := ⟨.uint, 2⟩

def uint4 : ValueType := ⟨.uint, 4⟩

def float1 : ValueType := ⟨.float, 1⟩

def float2 : ValueType := ⟨.float, 2⟩

def float4 : ValueType := ⟨.float, 4⟩

def double1 : ValueType := ⟨.double, 1⟩

def double2 : ValueType := ⟨.double, 2⟩

def bool1 : ValueType := ⟨.bool, 1⟩

def bool2 : ValueType := ⟨.bool, 2⟩

def bool4 : ValueType := ⟨.bool, 4⟩

/-- The standard types in the order in which the operation table lists them. -/
def catalog : List ValueType :=
  [int1, int2, int4, uint1, uint2, uint4, float1, float2, float4, double1, double2,
    bool1, bool2, bool4]

end ValueType

end ShaderIL
