import ShaderIL.Toml.Syntax

/-!
# TOML documents

A `Document` is the table that the items of a text define, with the paths of the keys that were
written, in the order of the text. `Document.parse?` refuses a text whose items contradict each
other.

A name is defined once. There are three ways out, and `Builder.define` is where they are decided. A
table that came into being only as the parent of another one (`implicits`) may be defined later. So
may one that a key with points passes through. And a name last defined as an array (`arrays`) may be
defined anew.
-/

namespace ShaderIL.Toml

/-- A document under construction. -/
structure Builder where
  root : Table := []
  context : Path := []
  implicits : List Path := []
  arrays : List Path := []
  keys : List Path := []

/-- A step of construction, which may find a contradiction. -/
abbrev Construct := StateT Builder Option

namespace Builder

/-- The table at a path. -/
def tableAt (path : Path) : Construct Table := do
  (← get).root.descend path

/-- Change the table at a path. -/
def change (path : Path) (f : Table → Table) : Construct Unit := do
  let b ← get
  let root ← Table.update f path b.root
  set { b with root }

/-- Take a table for the parent of others. -/
def addImplicit (path : Path) : Construct Unit :=
  modify fun b => { b with implicits := path :: b.implicits }

/-- Take a table for defined. -/
def removeImplicit (path : Path) : Construct Unit :=
  modify fun b => { b with implicits := b.implicits.filter (· != path) }

/-- The path whose kind a definition sets: without a name it is the table itself. -/
def kindPath (context : Path) (name : String) : Path :=
  if name.isEmpty then (if context.isEmpty then [name] else context) else context ++ [name]

/-- Note whether a definition is an array. -/
def noteKind (context : Path) (name : String) (isArray : Bool) : Construct Unit :=
  modify fun b =>
    let path := kindPath context name
    let others := b.arrays.filter (· != path)
    { b with arrays := if isArray then path :: others else others }

/-- Note that a key was written. -/
def noteKey (path : Path) : Construct Unit := modify fun b => { b with keys := b.keys ++ [path] }

/-- Define a name in the table at a path. -/
def define (context : Path) (name : String) (v : Value) : Construct Unit := do
  let t ← tableAt context
  let path := context ++ [name]
  if (t.find? name).isNone then change context (Table.set name v)
  else if (← get).arrays.contains path then
    removeImplicit path
    change context (Table.set name v)
  else if (← get).implicits.contains path then removeImplicit path
  else failure

/-- Make sure that tables lie along a path. -/
def openTables : Path → Path → Construct Unit
  | _, [] => pure ()
  | done, name :: rest => do
    let path := done ++ [name]
    match (← tableAt done).find? name with
    | none =>
      addImplicit path
      change done (Table.set name (.table []))
    | some (.table _) | some (.tables _) => pure ()
    | some _ => failure
    openTables path rest

/-- Open a table at a path. -/
def openTable (path : Path) : Construct Unit := do
  openTables [] path.dropLast
  define path.dropLast (path.getLastD "") (.table [])

/-- Open one more table of an array of tables at a path. -/
def openRow (path : Path) : Construct Unit := do
  openTables [] path.dropLast
  let name := path.getLastD ""
  match (← tableAt path.dropLast).find? name with
  | none => change path.dropLast (Table.set name (.tables [[]]))
  | some (.tables rows) => change path.dropLast (Table.set name (.tables (rows ++ [[]])))
  | some _ => failure

/-- Open the tables that a key with points passes through, and give the path of the last. -/
def passThrough : Path → Path → Construct Path
  | context, [] => pure context
  | context, name :: rest => do
    let path := context ++ [name]
    addImplicit path
    openTable path
    passThrough path rest

/-- The written value is an array. -/
def isArrayTerm : Term → Bool
  | .array _ => true
  | _ => false

mutual

/-- The value of a term that is assigned to a name. -/
def evaluate (context : Path) (name : String) (inArray : Bool) : Term → Construct Value
  | .scalar v => pure v
  | .array ts => do
    noteKind context name true
    return .array (← evaluateAll context name ts)
  | .inline fs => do
    let path := context ++ [name]
    addImplicit path
    if inArray then openRow path else openTable path
    return .table (← evaluateFields path [] fs)

/-- The values of the elements of an array. -/
def evaluateAll (context : Path) (name : String) : List Term → Construct (List Value)
  | [] => pure []
  | t :: ts => do
    let v ← evaluate context name true t
    return v :: (← evaluateAll context name ts)

/-- Define the fields of a table on one line after those read so far. -/
def evaluateFields (path : Path) (read : Table) : List (Path × Term) → Construct Table
  | [] => pure read
  | (key, t) :: fs => do
    let name := key.getLastD ""
    let context ← passThrough path key.dropLast
    noteKey (context ++ [name])
    let v ← evaluate context name false t
    define context name v
    noteKind context name (isArrayTerm t)
    evaluateFields path (read.set name v) fs

end

/-- Carry out an item. -/
def addItem : Item → Construct Unit
  | .table key => do
    openTable key
    modify fun b => { b with context := key }
    noteKind key "" false
    noteKey key
  | .row key => do
    openRow key
    modify fun b => { b with context := key }
    noteKind key "" false
    noteKey key
  | .assign key t => do
    let outer := (← get).context
    let name := key.getLastD ""
    let context ← passThrough outer key.dropLast
    noteKey (context ++ [name])
    let v ← evaluate context name false t
    define context name v
    noteKind context name (isArrayTerm t)

end Builder

/-- A table and the paths of the keys that were written, in order. -/
structure Document where
  root : Table
  keys : List Path

namespace Document

/-- The document of a list of items. -/
def ofItems? (items : List Item) : Option Document := do
  let ((), b) ← (items.forM Builder.addItem).run {}
  return ⟨b.root, b.keys⟩

/-- The document of a text. -/
def parse? (text : String) : Option Document := (items? text).bind ofItems?

/-- The value of a name in a table of the document. -/
def find? (d : Document) (group name : String) : Option Value :=
  match d.root.find? group with
  | some (.table t) => Table.find? t name
  | _ => none

end Document

end ShaderIL.Toml
