import ShaderIL.Kernel.MatMul
import ShaderIL.Kernel.NBody

/-!
# Shipped kernels

A `Kernel` is a named body with parameters, tuned for one target though it builds for any. A
`Registry` holds kernels in the order of their names, each name once. `compileKernel` compiles a
shipped kernel by its name.
-/

namespace ShaderIL

/-- The release of the compiler. -/
def version : String := "0.3.0"

/-- How far a kernel is unrolled. A kernel ignores what it does not use. -/
structure Params where
  tileX : Int := 8
  tileY : Int := 8
  unroll : Int := 1
  deriving DecidableEq, Repr

/-- A kernel that can be compiled by its name. -/
structure Kernel where
  name : String
  description : String
  target : Target
  body : Params → Body

/-- Kernels in the order of their names. -/
structure Registry where
  kernels : List Kernel

namespace Registry

/-- The kernel of a name. -/
def find? (r : Registry) (name : String) : Option Kernel := r.kernels.find? fun k => k.name == name

/-- The names in order. -/
def names (r : Registry) : List String := r.kernels.map Kernel.name

/-- The complaint about a name that is taken. -/
def takenMessage (name : String) : String := "kernels: " ++ Text.quoted name ++ " registered twice"

/-- A kernel put before the first one of a greater name. -/
def place (k : Kernel) : List Kernel → List Kernel
  | [] => [k]
  | l :: ls => if k.name < l.name then k :: l :: ls else l :: place k ls

/-- The registry with one more kernel; none if the name is taken. -/
def insert? (r : Registry) (k : Kernel) : Option Registry :=
  if (r.find? k.name).isSome then none else some ⟨place k r.kernels⟩

/-- The kernels of this library. -/
def shipped : Registry :=
  ⟨[{ name := "matmul", description := "tiled A^T*B matrix multiply over float4 images",
      target := .pixel, body := fun p => MatMul.body p.tileX p.tileY },
    { name := "nbody", description := "one n-body integration step over a float4 body image",
      target := .compute, body := fun p => NBody.body p.unroll }]⟩

end Registry

/-- Compile a shipped kernel. -/
def compileKernel (name : String) (p : Params) (o : Options) (order : Traversal := .ascending) :
    Except Fault (Except CompileError Compiled) :=
  match Registry.shipped.find? name with
  | none => .ok (.error (.unknownKernel name))
  | some k => compile o (some (k.body p)) order

end ShaderIL
