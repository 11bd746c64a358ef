import ShaderIL.Assembler.Program
import ShaderIL.Assembler.Statement
import ShaderIL.Script.Term

/-!
# Sessions

A session is a list of steps: create assemblers, keep and check expressions, make statements, ask
for texts. `Session.step` carries out one step and gives its reply; `Session.run` carries out a list
and stops at the first fault.
-/

namespace ShaderIL.Script

/-- A step on one assembler. -/
inductive Action where
  | begin
  | finish (order : Traversal := .ascending)
  | declare (type : ValueType)
  | eval (e : Term)
  | assign (dst e : Term)
  | comment (text : String)
  | whileLoop
  | endLoop
  | breakIf (cond : Term)
  | breakLoop
  | continueLoop
  | ifTrue (cond : Term)
  | elseBranch
  | endIf
  | header
  | code
  | program
  | write
  | bindings
  | target

/-- A step of a session. -/
inductive Step where
  | keep (e : Term)
  | check (e : Term)
  | address (a : AddressTerm)
  | create (target : Target) (device : Device) (threads : ThreadGroup)
  | act (assembler : Nat) (action : Action)

/-- What is shown of a node beside its type and errors. -/
inductive Detail where
  | nothing
  | overload (signature : Option String)
  | pattern (text : String)
  | words (bits : Quad)

/-- What checking an expression shows. An absent expression has no type. -/
structure Check where
  type : Option ValueType
  errors : List Error
  detail : Detail

/-- What a step yields. -/
inductive Reply where
  | nothing
  | type (t : Option ValueType)
  | checked (c : Check)
  | address (bound : Bool) (offset : Int64)
  | verdict (report : Option Report)
  | variable (v : Variable)
  | operand (o : Operand)
  | refused (r : Report)
  | text (s : String)
  | written (text : String) (report : Option Report)
  | bindings (bs : List Binding)

/-- A reply, with the assembler it concerns after the step. -/
structure Answer where
  reply : Reply
  assembler : Option Assembler

/-- The assemblers, variables and expressions of a session, numbered in order of creation. -/
structure Session where
  assemblers : Array Assembler := #[]
  env : Env := {}

/-- The type of an expression that is there. -/
def typeOf (e : Expr) : Option ValueType := if e.isPresent then some e.type else none

/-- What is shown of a node beside its type and errors. -/
def detailOf : Expr → Detail
  | e@(.unary ..) | e@(.convert ..) | e@(.binary ..) | e@(.ternary ..) =>
    .overload (e.overload?.map Overload.text)
  | .select _ p => .pattern p.text
  | .unselected _ _ => .pattern ""
  | .literal l => .words l.bits
  | _ => .nothing

/-- Check an expression outside any unit. -/
def checkExpr (e : Expr) : Check := ⟨typeOf e, e.errors none, detailOf e⟩

namespace Session

/-- The assembler of a number. -/
def assembler (s : Session) (i : Nat) : Except Fault Assembler :=
  match s.assemblers[i]? with
  | some a => .ok a
  | none => .error .absentOperand

/-- The session with an assembler replaced. -/
def withAssembler (s : Session) (i : Nat) (a : Assembler) : Session :=
  { s with assemblers := s.assemblers.setIfInBounds i a }

/-- What a term denotes as the left side of an assignment. -/
def lvalue (s : Session) (t : Term) : Except Fault (Option LValue) := do
  match ← t.build s.env with
  | .absent => return none
  | e =>
    match LValue.ofExpr? e with
    | some d => return some d
    | none => throw .absentOperand

/-- The statement an action stands for. -/
def statement? (s : Session) : Action → Except Fault (Option Statement)
  | .declare t => return some (.declare t)
  | .eval e => return some (.eval (← e.build s.env))
  | .assign dst e => do
    let d ← s.lvalue dst
    return some (.assign d (← e.build s.env))
  | .comment text => return some (.comment text)
  | .whileLoop => return some .whileLoop
  | .endLoop => return some .endLoop
  | .breakIf cond => return some (.breakIf (← cond.build s.env))
  | .breakLoop => return some .breakLoop
  | .continueLoop => return some .continueLoop
  | .ifTrue cond => return some (.ifTrue (← cond.build s.env))
  | .elseBranch => return some .elseBranch
  | .endIf => return some .endIf
  | _ => return none

/-- What a statement's outcome shows. -/
def replyOf : Outcome → Reply
  | .done => .nothing
  | .declared v => .variable v
  | .value (.ok o) => .operand o
  | .value (.error r) => .refused r

/-- The variables after a statement's outcome. -/
def keepVariable (env : Env) : Outcome → Env
  | .declared v => { env with vars := env.vars.push v }
  | _ => env

/-- What an action that is no statement does to an assembler and shows. -/
def query (a : Assembler) : Action → Reply × Assembler
  | .begin =>
    match a.begin with
    | .ok a => (.verdict none, a)
    | .error e => (.verdict (some (.single e)), a)
  | .finish order =>
    match a.finish order with
    | .ok a => (.verdict a.report, a)
    | .error e => (.verdict (some (.single e)), a)
  | .header => (.text a.header, a)
  | .code => (.text a.code, a)
  | .program =>
    match a.program with
    | .ok text => (.text text, a)
    | .error r => (.refused r, a)
  | .write =>
    match a.program with
    | .ok text => (.written text none, a)
    | .error r => (.written "" (some r), a)
  | .bindings => (.bindings a.bindings, a)
  | .target => (.text a.target.text, a)
  | _ => (.nothing, a)

/-- Carry out an action on an assembler. -/
def act (s : Session) (i : Nat) (action : Action) : Except Fault (Answer × Session) := do
  let a ← s.assembler i
  match ← s.statement? action with
  | some statement =>
    let (outcome, a) ← a.exec statement
    let s := { s.withAssembler i a with env := keepVariable s.env outcome }
    return (⟨replyOf outcome, some a⟩, s)
  | none =>
    let (reply, a) := query a action
    return (⟨reply, some a⟩, s.withAssembler i a)

/-- Carry out a step. -/
def step (s : Session) : Step → Except Fault (Answer × Session)
  | .keep t => do
    let e ← t.build s.env
    return (⟨.type (typeOf e), none⟩, { s with env := { s.env with kept := s.env.kept.push e } })
  | .check t => do
    let e ← t.build s.env
    return (⟨.checked (checkExpr e), none⟩, s)
  | .address t => do
    let a ← t.build s.env
    return (⟨.address a.bound a.offset, none⟩, s)
  | .create target device threads =>
    let a : Assembler := { id := s.assemblers.size, target, device, threads }
    return (⟨.nothing, some a⟩, { s with assemblers := s.assemblers.push a })
  | .act i action => s.act i action

/-- Carry out steps until one faults. Answers come in order, and the session is the one after the
last step that was carried out. -/
def run (s : Session) : List Step → List Answer × Option Fault × Session
  | [] => ([], none, s)
  | st :: rest =>
    match s.step st with
    | .error f => ([], some f, s)
    | .ok (answer, s) =>
      let (answers, fault, s) := s.run rest
      (answer :: answers, fault, s)

end Session

end ShaderIL.Script
