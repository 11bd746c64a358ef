/-!
# Paths

A `Path` is a list of names, from the root or from somewhere else. `Path.ofText` reads a text and
resolves the names `.` and `..` in it without looking at any file, as far as that can be done.
-/

namespace ShaderIL

/-- A path in its simplest form. Only a path that does not start at the root may start with `..`. -/
structure Path where
  rooted : Bool
  names : List String
  deriving DecidableEq, Repr

namespace Path

/-- The pieces of a text between slashes, the first one kept backwards. -/
def splitFrom (piece : List Char) : List Char → List String
  | [] => [String.ofList piece.reverse]
  | c :: cs =>
    if c == '/' then String.ofList piece.reverse :: splitFrom [] cs else splitFrom (c :: piece) cs

/-- The pieces of a text between slashes. -/
def pieces (s : String) : List String := splitFrom [] s.toList

/-- The text starts at the root. -/
def isRooted (s : String) : Bool := s.toList.head? == some '/'

/-- The path that a name leads to. -/
def push (p : Path) (name : String) : Path :=
  if name.isEmpty || name == "." then p
  else if name == ".." then
    match p.names.getLast? with
    | some last =>
      if last == ".." then { p with names := p.names ++ [name] }
      else { p with names := p.names.dropLast }
    | none => if p.rooted then p else { p with names := [name] }
  else { p with names := p.names ++ [name] }

/-- The path that a text leads to. -/
def append (p : Path) (s : String) : Path := (pieces s).foldl push p

/-- The path of a text. -/
def ofText (s : String) : Path := append ⟨isRooted s, []⟩ s

/-- The path of a text, seen from a directory. -/
def seenFrom (directory : Path) (s : String) : Path :=
  if isRooted s then ofText s else directory.append s

/-- The text of a path. -/
def text (p : Path) : String :=
  if p.rooted then "/" ++ "/".intercalate p.names
  else if p.names.isEmpty then "."
  else "/".intercalate p.names

/-- The path without its last name. -/
def parent (p : Path) : Path := { p with names := p.names.dropLast }

end Path

end ShaderIL
