import ShaderIL.Cache.Store
import ShaderIL.Files.FileError

/-!
# What a command needs around it

A command reads and writes files, prints, and asks for its surroundings. `Shell` lists these
operations for a monad, so that the same command runs on real files and on a file tree.
-/

namespace ShaderIL

/-- The operations of a command. Paths are texts, seen from the working directory. -/
class Shell (m : Type → Type) where
  /-- The working directory. -/
  workingDirectory : m String
  /-- Where users keep their caches, or why that is not known. -/
  cacheHome : m (Except String String)
  /-- The number of processors. -/
  processors : m Nat
  /-- The error output goes to a terminal. -/
  terminal : m Bool
  /-- A moment to measure from. -/
  now : m Nat
  /-- The time since a moment, as a text. -/
  elapsed (since : Nat) : m String
  /-- Write to the standard output. -/
  print (text : String) : m Unit
  /-- Write to the error output. -/
  printError (text : String) : m Unit
  /-- Ask for a file. -/
  status (path : String) : m Status
  /-- Read a file. -/
  readFile (path : String) : m (Except FileError Stored)
  /-- Write a file. -/
  writeFile (path : String) (contents : Stored) : m (Except FileError Unit)
  /-- Make a directory and those it lies in. -/
  makeDirectories (path : String) : m (Except FileError Unit)

end ShaderIL
