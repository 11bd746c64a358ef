import ShaderIL.Cache.Key

/-!
# The cache of compiled kernels

An `Entry` is a compiled kernel with the number of the scheme it was written in. What is stored
under a key is a `Stored` file: a whole entry, the first bytes of one, or foreign text. Reading a
whole entry of the current scheme finds it; a whole entry of another scheme, or one that is cut
after its opening bytes, counts as missing; anything else is an error.

A `Store` maps keys to files. There may be no store at all, and then nothing is kept or found.
-/

namespace ShaderIL

/-- A compiled kernel as it is kept. -/
structure Entry where
  schema : Nat := 0
  kernel : String
  program : String
  bindings : List Binding
  registers : Nat
  literals : Nat
  instructions : Nat
  deriving DecidableEq, Repr

namespace Entry

/-- The number of the current scheme. -/
def currentSchema : Nat := 1

/-- The entry in the current scheme. -/
def stamped (e : Entry) : Entry := { e with schema := currentSchema }

/-- The entry of a compiled kernel. -/
def ofCompiled (kernel : String) (c : Compiled) : Entry :=
  { kernel, program := c.text, bindings := c.bindings, registers := c.registers,
    literals := c.literals, instructions := c.instructions }

end Entry

/-- The contents of a file. -/
inductive Stored where
  | entry (e : Entry)
  | part (size : Nat)
  | text (s : String)
  deriving DecidableEq, Repr

/-- Why a file is no entry. -/
inductive EntryError where
  | cut
  | foreign
  deriving DecidableEq, Repr

/-- The wording of an unreadable entry. -/
def EntryError.detail : EntryError → String
  | cut => "unexpected EOF"
  | foreign => "xz: invalid header magic bytes"

/-- The text of an unreadable entry. -/
def EntryError.message (k : Key) (e : EntryError) : String :=
  "kcache: " ++ k.text ++ ": " ++ e.detail

namespace Stored

/-- The bytes an entry opens with, before any of its contents. -/
def openingSize : Nat := 24

/-- The entry in a file. -/
def read : Stored → Except EntryError (Option Entry)
  | entry e => .ok (if e.schema == Entry.currentSchema then some e else none)
  | part size => if size < openingSize then .error .cut else .ok none
  | text _ => .error .foreign

/-- The first bytes of a file. -/
def truncate (keep : Nat) : Stored → Stored
  | entry _ => part keep
  | part size => part (min size keep)
  | text s => text s

end Stored

/-- Files by key, in the order of their names. -/
structure Store where
  files : List (Key × Stored) := []

namespace Store

/-- The file under a key. -/
def find? (s : Store) (k : Key) : Option Stored := s.files.lookup k

/-- A file put in its place among the others. -/
def place (k : Key) (f : Stored) : List (Key × Stored) → List (Key × Stored)
  | [] => [(k, f)]
  | (l, g) :: rest =>
    if k = l then (k, f) :: rest
    else if k.text < l.text then (k, f) :: (l, g) :: rest
    else (l, g) :: place k f rest

/-- The store with a file under a key. -/
def insert (s : Store) (k : Key) (f : Stored) : Store := ⟨place k f s.files⟩

/-- The names of the files in order. -/
def fileNames (s : Store) : List String := s.files.map fun (k, _) => k.fileName

/-- The entry under a key. -/
def get (s : Store) (k : Key) : Except EntryError (Option Entry) :=
  match s.find? k with
  | none => .ok none
  | some f => f.read

/-- The store with an entry under a key. -/
def put (s : Store) (k : Key) (e : Entry) : Store := s.insert k (.entry e.stamped)

end Store

end ShaderIL
