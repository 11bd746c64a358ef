import ShaderIL.Kernel.Vocabulary

/-!
# Gravitation

`NBody.body` takes one step of a softened many-body simulation. Input 0 holds positions with the
mass in the fourth component, input 1 velocities, each as one row of texels. The first element of
constant buffer 0 holds the number of bodies, the time step and the square of the softening length.
The new position and velocity of a body go to neighbouring elements of the global buffer.

A round of the loop takes as many bodies as it is unrolled for (`NBody.pull` adds the pull of one).
-/

namespace ShaderIL.NBody

/-- The variables of a work item. -/
structure Variables where
  id : Variable
  self : Variable
  acc : Variable
  index : Variable
  other : Variable
  distance : Variable
  inverse : Variable

/-- Declare the variables of a work item. -/
def declareVariables : Build Variables := do
  let id ← Build.declare .float1
  let self ← Build.declare .float4
  let acc ← Build.declare .float4
  let index ← Build.declare .float1
  let other ← Build.declare .float4
  let distance ← Build.declare .float4
  let inverse ← Build.declare .float1
  return ⟨id, self, acc, index, other, distance, inverse⟩

/-- The positions and masses. -/
def bodies : Input := ⟨0, .float4⟩

/-- The velocities. -/
def velocities : Input := ⟨1, .float4⟩

/-- The number of bodies. -/
def count : Expr := .field ⟨0, 1, 0, .float1, some "x"⟩

/-- The time step. -/
def timeStep : Expr := .field ⟨0, 1, 0, .float1, some "y"⟩

/-- The square of the softening length. -/
def softening : Expr := .field ⟨0, 1, 0, .float1, some "z"⟩

/-- The texel of an input for a body. -/
def texel (i : Input) (body : Variable) : Expr := .texel i (.var body) (.ofInt .float1 0)

/-- The fourth component of a variable. -/
def mass (v : Variable) : Expr := .component v .w

/-- Read the body itself and clear the sum. -/
def setUp (v : Variables) : List Statement :=
  [.set v.id (.position .float1),
    .set v.self (texel bodies v.id),
    .set v.acc (.ofInt .float4 0),
    .set v.index (.ofInt .float1 0)]

/-- Add the pull of one body: its mass times the distance over the softened distance cubed. -/
def pull (v : Variables) : List Statement :=
  [.set v.other (texel bodies v.index),
    .set v.distance (.binary .sub (.var v.other) (.var v.self)),
    .assign (some (.view v.distance "w")) (.ofInt .float1 0),
    .set v.inverse (.unary .rsqrt
      (.binary .add (.binary .dot (.var v.distance) (.var v.distance)) softening)),
    .set v.inverse (.binary .mul (.binary .mul (.var v.inverse) (.var v.inverse)) (.var v.inverse)),
    .set v.acc (.ternary .mad (.var v.distance) (.binary .mul (mass v.other) (.var v.inverse))
      (.var v.acc)),
    .set v.index (.withInt .add (.var v.index) 1)]

/-- The loop over the bodies. -/
def loop (v : Variables) (unroll : Nat) : List Statement :=
  [.whileLoop, .breakIf (.binary .ge (.var v.index) count)] ++
  (List.replicate unroll (pull v)).flatten ++
  [.endLoop]

/-- Compute and store the new velocity and position. -/
def store (v : Variables) (velocity next base : Variable) : List Statement :=
  [.set velocity (.ternary .mad (.var v.acc) timeStep (texel velocities v.id)),
    .set next (.ternary .mad (.var velocity) timeStep (.var v.self)),
    .assign (some (.view next "w")) (mass v.self),
    .set base (.withInt .shl (.position .uint1) 1),
    .assign (some (.element .float4 (Address.ofExpr (.var base)))) (.var next),
    .assign (some (.element .float4 ((Address.ofExpr (.var base)).add 1))) (.var velocity)]

/-- The kernel unrolled for a number of bodies. -/
def body (unroll : Int) : Body :=
  if unroll < 1 then return some (.unroll unroll)
  else do
    let v ← declareVariables
    Build.perform (setUp v ++ loop v unroll.toNat)
    let velocity ← Build.declare .float4
    let next ← Build.declare .float4
    let base ← Build.declare .uint1
    Build.perform (store v velocity next base)
    Build.verdict

end ShaderIL.NBody
