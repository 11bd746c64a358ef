import ShaderIL.Cache.Store
import ShaderIL.Files.FileError
import ShaderIL.Files.Path

/-!
# File trees

A `FileTree` holds directories and files by their names from the root. A text names a place in the
tree name by name: every name but the last must lead to a directory.
-/

namespace ShaderIL

/-- A directory or a file. -/
inductive Node where
  | directory
  | file (contents : Stored)
  deriving DecidableEq, Repr

/-- Directories and files by their names from the root. The root itself is always there. -/
structure FileTree where
  nodes : List (List String × Node) := []

namespace FileTree

/-- The longest name a directory can hold, in bytes. -/
def maxName : Nat := 255

/-- The longest text that can name a place, in bytes. -/
def maxText : Nat := 4095

/-- The node at a place. -/
def node? (t : FileTree) (place : List String) : Option Node :=
  if place.isEmpty then some .directory else t.nodes.lookup place

/-- The tree with a node at a place. -/
def set (t : FileTree) (place : List String) (n : Node) : FileTree :=
  ⟨t.nodes.filter (fun (other, _) => other != place) ++ [(place, n)]⟩

/-- The place that names lead to from a place. -/
def walk (t : FileTree) (place : List String) : List String → Except FileCause (List String)
  | [] => .ok place
  | name :: rest =>
    match t.node? place with
    | none => .error .notFound
    | some (.file _) => .error .notDirectory
    | some .directory =>
      if name.isEmpty || name == "." then t.walk place rest
      else if name == ".." then t.walk place.dropLast rest
      else if maxName < name.utf8ByteSize then .error .nameTooLong
      else t.walk (place ++ [name]) rest

/-- The place that a text names, seen from a directory. -/
def resolve (t : FileTree) (directory : Path) (s : String) : Except FileCause (List String) :=
  if s.isEmpty then .error .notFound
  else if s.toList.contains (Char.ofNat 0) then .error .invalid
  else if maxText < s.utf8ByteSize then .error .nameTooLong
  else t.walk (if Path.isRooted s then [] else directory.names) (Path.pieces s)

/-- What is at the place that a text names. -/
def lookup (t : FileTree) (directory : Path) (s : String) : Except FileCause Node :=
  match t.resolve directory s with
  | .error cause => .error cause
  | .ok place =>
    match t.node? place with
    | some n => .ok n
    | none => .error .notFound

/-- Ask for what a text names. -/
def status (t : FileTree) (directory : Path) (s : String) : Status :=
  match t.lookup directory s with
  | .ok _ => .present
  | .error .notFound => .missing
  | .error cause => .failed cause

/-- The contents of a file. -/
def read (t : FileTree) (directory : Path) (s : String) : Except FileError Stored :=
  match t.lookup directory s with
  | .ok (.file contents) => .ok contents
  | .ok .directory => .error ⟨"read", s, .isDirectory⟩
  | .error cause => .error ⟨"open", s, cause⟩

/-- The tree with a file written. The directory it goes to must be there. -/
def write (t : FileTree) (directory : Path) (s : String) (contents : Stored) :
    Except FileError FileTree :=
  match t.resolve directory s with
  | .error cause => .error ⟨"open", s, cause⟩
  | .ok place =>
    match t.node? place, t.node? place.dropLast with
    | some .directory, _ => .error ⟨"open", s, .isDirectory⟩
    | some (.file _), _ => .ok (t.set place (.file contents))
    | none, some .directory => .ok (t.set place (.file contents))
    | none, some (.file _) => .error ⟨"open", s, .notDirectory⟩
    | none, none => .error ⟨"open", s, .notFound⟩

/-- The tree with a directory at the end of a list of names, and directories on the way to it. -/
def makeFrom (t : FileTree) (place done : List String) :
    List String → Except FileError FileTree
  | [] => .ok t
  | name :: rest =>
    let done := done ++ [name]
    if name.isEmpty || name == "." then t.makeFrom place done rest
    else if name == ".." then t.makeFrom place.dropLast done rest
    else
      let place := place ++ [name]
      let refuse (cause : FileCause) : Except FileError FileTree :=
        .error ⟨"mkdir", "/".intercalate done, cause⟩
      match t.node? place with
      | some .directory => t.makeFrom place done rest
      | some (.file _) => refuse .notDirectory
      | none =>
        if maxName < name.utf8ByteSize then refuse .nameTooLong
        else (t.set place .directory).makeFrom place done rest

/-- The tree with the directory that a text names. -/
def makeDirectories (t : FileTree) (directory : Path) (s : String) : Except FileError FileTree :=
  if s.isEmpty then .error ⟨"mkdir", s, .notFound⟩
  else if s.toList.contains (Char.ofNat 0) then .error ⟨"mkdir", s, .invalid⟩
  else
    let rooted := Path.isRooted s
    t.makeFrom (if rooted then [] else directory.names) [] (Path.pieces s)

/-- Add a file or, if the text ends with a slash, a directory, with the directories on its way. -/
def plant (t : FileTree) (directory : Path) (s contents : String) : FileTree :=
  let place := (directory.append s).names
  let above := (List.range place.length).map fun n => place.take n
  let t := above.foldl
    (fun t place => if (t.node? place).isSome then t else t.set place .directory) t
  if s.toList.getLast? == some '/' then
    if (t.node? place).isSome then t else t.set place .directory
  else t.set place (.file (.text contents))

end FileTree

end ShaderIL
