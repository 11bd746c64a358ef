/-!
# TOML values

A document is a table of named values. Arrays of tables that grow header by header (`tables`) are
kept apart from arrays that are written out at once (`array`). Of floating-point numbers and of
moments only the fact is kept that they are such. A path names a value from the root; on its way it
passes through tables, and through the last table of an array of tables.
-/

namespace ShaderIL.Toml

/-- A value. -/
inductive Value where
  | string (s : String)
  | integer (n : Int)
  | float
  | boolean (b : Bool)
  | moment
  | array (elements : List Value)
  | table (fields : List (String × Value))
  | tables (rows : List (List (String × Value)))

/-- Named values in the order of their first mention, every name once. -/
abbrev Table := List (String × Value)

/-- The names from the root to a value. -/
abbrev Path := List String

namespace Table

/-- The value of a name. -/
def find? (t : Table) (name : String) : Option Value := t.lookup name

/-- The table with a value under a name. -/
def set (name : String) (v : Value) : Table → Table
  | [] => [(name, v)]
  | (other, w) :: rest =>
    if other = name then (name, v) :: rest else (other, w) :: set name v rest

/-- The table at a path. -/
def descend : Path → Table → Option Table
  | [], t => some t
  | name :: path, t =>
    match t.find? name with
    | some (.table u) => descend path u
    | some (.tables us) => us.getLast?.bind (descend path)
    | _ => none

/-- The table with the one at a path changed. -/
def update (f : Table → Table) : Path → Table → Option Table
  | [], t => some (f t)
  | name :: path, t =>
    match t.find? name with
    | some (.table u) => (update f path u).map fun u => t.set name (.table u)
    | some (.tables us) => do
      let u ← update f path (← us.getLast?)
      return t.set name (.tables (us.dropLast ++ [u]))
    | _ => none

end Table

/-! ### The text of a path -/

/-- The characters a name may have without quotes. -/
def isBare (c : Char) : Bool := c.isAlphanum || c == '_' || c == '-'

end ShaderIL.Toml
