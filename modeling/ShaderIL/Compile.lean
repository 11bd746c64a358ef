import ShaderIL.Assembler.Program
import ShaderIL.Assembler.Statement

/-!
# Compilation

A kernel makes statements in an open unit and may end with an error of its own. `compile` opens a
unit, runs the kernel, closes the unit and returns the program with what must be bound and how much
of the machine it takes. If something went wrong, the unit's first error comes before the kernel's.
-/

namespace ShaderIL

/-- What a program is compiled for. -/
structure Options where
  target : Target := .pixel
  device : Device := {}
  threads : ThreadGroup := {}
  deriving DecidableEq, Repr

/-- The assembler a program is compiled with. -/
def Options.assembler (o : Options) : Assembler :=
  { target := o.target, device := o.device, threads := o.threads }

/-- Why a kernel gives up. -/
inductive KernelError where
  | report (r : Report)
  | tile (x y : Int)
  | unroll (count : Int)
  | stated (text : String)
  deriving DecidableEq, Repr

namespace KernelError

/-- The text of a kernel's error. -/
def message : KernelError → String
  | report r => r.message
  | tile x y =>
    "matmul: tile " ++ toString x ++ "x" ++ toString y ++ " is not a positive multiple of 4"
  | unroll count => "nbody: unroll " ++ toString count ++ " must be at least 1"
  | stated text => text

/-- The report a kernel passes on. -/
def report? : KernelError → Option Report
  | report r => some r
  | _ => none

end KernelError

/-- Statements in an open unit. -/
abbrev Build := StateT Assembler (Except Fault)

namespace Build

/-- Declare a variable. -/
def declare (t : ValueType) : Build Variable := modifyGet fun s => s.declare t

/-- Declare several variables of a type. -/
def declareMany (t : ValueType) : Nat → Build (List Variable)
  | 0 => pure []
  | n + 1 => do
    let v ← declare t
    return v :: (← declareMany t n)

/-- Make statements in order. -/
def perform (statements : List Statement) : Build Unit := fun s => do
  let (_, s) ← s.execAll statements
  return ((), s)

/-- End with the unit's error, if there is one. -/
def verdict : Build (Option KernelError) := do
  return (← get).report.map .report

end Build

/-- What a kernel does: its statements, then perhaps an error. -/
abbrev Body := Build (Option KernelError)

/-- Why a kernel was not compiled. -/
inductive CompileError where
  | absentKernel
  | unknownKernel (name : String)
  | unit (r : Report)
  | kernel (e : KernelError)
  | countRange
  deriving DecidableEq, Repr

namespace CompileError

/-- The text of a compilation error. -/
def message : CompileError → String
  | absentKernel => Error.absentKernel.message
  | unknownKernel name => "calil: unknown kernel " ++ Text.quoted name
  | unit r => "calil: " ++ r.message
  | kernel e => "calil: " ++ e.message
  | countRange => "calil: out of range"

/-- The report behind a compilation error. -/
def report? : CompileError → Option Report
  | absentKernel => some (.single .absentKernel)
  | unit r => some r
  | kernel e => e.report?
  | unknownKernel _ | countRange => none

end CompileError

/-- A program and what it needs. -/
structure Compiled where
  text : String
  target : Target
  bindings : List Binding
  registers : Nat
  literals : Nat
  instructions : Nat
  deriving DecidableEq, Repr

/-- A count that fits the word it is reported in. -/
def reportedCount (n : Nat) : Except CompileError Nat :=
  match (Host.word n).narrow .uint32 with
  | some m => .ok m.toNat
  | none => .error .countRange

/-- The program of a closed unit. -/
def Assembler.compiled (s : Assembler) : Except CompileError Compiled :=
  match s.program with
  | .error r => .error (.unit r)
  | .ok text => do
    return { text, target := s.target, bindings := s.bindings,
             registers := ← reportedCount s.registers, literals := ← reportedCount s.literals,
             instructions := ← reportedCount s.instructions }

/-- Close the unit after a kernel with the given error of its own. -/
def Assembler.conclude (s : Assembler) (own : Option KernelError) (order : Traversal := .ascending) :
    Except CompileError Compiled :=
  match s.finish order with
  | .error e => .error (.unit (.single e))
  | .ok s =>
    match s.report, own with
    | some r, _ => .error (.unit r)
    | none, some e => .error (.kernel e)
    | none, none => s.compiled

/-- Compile a kernel. -/
def compile (o : Options) (kernel : Option Body) (order : Traversal := .ascending) :
    Except Fault (Except CompileError Compiled) :=
  match kernel with
  | none => .ok (.error .absentKernel)
  | some body =>
    match o.assembler.begin with
    | .error e => .ok (.error (.unit (.single e)))
    | .ok s => do
      let (own, s) ← body.run s
      return s.conclude own order

end ShaderIL
