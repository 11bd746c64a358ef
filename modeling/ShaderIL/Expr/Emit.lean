import ShaderIL.Assembler.Draft
import ShaderIL.Assembler.Target
import ShaderIL.Expr.Basic

/-!
# Emission of expressions

`Expr.emit` appends the code of an expression to a draft and returns the operand that holds its
value. Operands come before the operation, from left to right; an operation takes a fresh register
for its result and then its scratch registers. Only trees without errors are emitted; whatever
else is reached is a fault.
-/

namespace ShaderIL

/-- The value of an `Except`, or a fault if it is refused. -/
def orFault {α : Type} : Except Error α → Emit α
  | .ok a => pure a
  | .error _ => throw .unresolved

/-- Append the code of an overload that writes to a given operand. -/
def Overload.emitInto (f : Overload) (dst : Operand) (args : List Operand) : Emit Unit := do
  let scratch ← Draft.allocMany f.result f.scratch
  let is ← f.emit dst args scratch
  Draft.writeAll is

/-- Append the code of an overload that writes to a fresh register. -/
def Overload.emitFresh (f : Option Overload) (args : List Operand) : Emit Operand :=
  match f with
  | none => throw .unresolved
  | some f => do
    let dst ← Draft.alloc f.result
    f.emitInto dst args
    return dst

/-- Append an instruction that writes to a fresh register. -/
def emitFresh (mnemonic : Mnemonic) (t : ValueType) (source : Operand) : Emit Operand := do
  let dst ← Draft.alloc t
  Draft.writeAll [⟨mnemonic, dst.destination, [source.source]⟩]
  return dst

/-- The operand of a variable. -/
def Variable.operand (v : Variable) : Emit Operand :=
  match v.home with
  | some h => pure (Operand.ofType (.temp h.register) v.declared)
  | none => throw .absentOperand

/-- The operand of the lanes of a variable. -/
def Variable.viewOperand (v : Variable) (mask : String) : Emit Operand := do
  let s ← orFault (v.viewLanes mask)
  (← v.operand).select s

/-- The mnemonic that turns the window position into a kind. -/
def Kind.fromFloat (k : Kind) : Mnemonic := ((k.conversion .float).map Prod.fst).getD .blank

/-- Append the code for the position of the work item. A compute program reads the thread number,
any other the window position rounded down. -/
def emitPosition (target : Target) (t : ValueType) : Emit Operand :=
  if target == .compute then do
    let id ← (Operand.ofType .threadId .int4).span 0 t.components
    if t.kind == .float then emitFresh .itof t id else return id
  else do
    Draft.usePosition
    let window ← (Operand.ofType .windowPosition .float4).span 0 t.components
    let rounded ← emitFresh .floor (.vector .float t.components) window
    if t.kind == .float then return rounded else emitFresh t.kind.fromFloat t rounded

/-- The operand of an element of the global buffer at an offset from a base. -/
def elementOperand (t : ValueType) (base : Operand) (offset : Int64) : Operand :=
  Operand.ofType (.globalFrom base.place base.lanes offset) t

/-- The operand of an element of the global buffer at a fixed offset. -/
def elementAtOperand (t : ValueType) (offset : Int64) : Operand :=
  Operand.ofType (.globalAt offset) t

/-- Append the code of an expression and return the operand of its value. -/
def Expr.emit (target : Target) : Expr → Emit Operand
  | absent => throw .absentOperand
  | unselected _ _ => throw .unresolved
  | unary op x => do
    let a ← x.emit target
    Overload.emitFresh (op.overload? x.type) [a]
  | convert op t x => do
    let a ← x.emit target
    Overload.emitFresh (op.overload? t x.type) [a]
  | binary op x y => do
    let a ← x.emit target
    let b ← y.emit target
    Overload.emitFresh (op.overload? x.type y.type) [a, b]
  | ternary op x y z => do
    let a ← x.emit target
    let b ← y.emit target
    let c ← z.emit target
    Overload.emitFresh (op.overload? x.type y.type z.type) [a, b, c]
  | select x p => do
    let a ← x.emit target
    a.select p
  | literal l => do
    let place ← Draft.intern l.bits
    return Operand.ofType place l.declared
  | external t text => orFault (externalOperand .named t text)
  | field f => do
    Draft.useBuffer f.slot f.size
    orFault f.operand
  | var v => v.operand
  | view v mask => v.viewOperand mask
  | sample i c => do
    let a ← c.emit target
    Draft.useInput i.slot i.type
    emitFresh (.sample i.slot) i.type a
  | element t b offset => do
    Draft.useGlobal
    let a ← b.emit target
    emitFresh .mov t (elementOperand t a offset)
  | elementAt t offset => do
    Draft.useGlobal
    emitFresh .mov t (elementAtOperand t offset)
  | position t => emitPosition target t

/-- Append the code of several expressions in order. -/
def Expr.emitAll (target : Target) : List Expr → Emit (List Operand)
  | [] => pure []
  | e :: es => do
    let a ← e.emit target
    return a :: (← emitAll target es)

end ShaderIL
