import ShaderIL.CommandLine.Request

/-!
# How output looks

Words can be coloured by terminal codes; columns are set two blanks apart.
-/

namespace ShaderIL

/-- Whether output is coloured. -/
structure Style where
  coloured : Bool
  deriving DecidableEq, Repr

namespace Style

/-- Output without colours. -/
def plain : Style := ⟨false⟩

/-- The style that a word asks for; other words leave it to the terminal. -/
def ofWord (word : String) (terminal : Bool) : Style :=
  ⟨word == "on" || (word != "off" && terminal)⟩

/-- A terminal code. -/
def code (text : String) : String := String.ofList [Char.ofNat 0x1b, '['] ++ text ++ "m"

/-- A text between two codes. -/
def between (s : Style) (start stop text : String) : String :=
  if s.coloured then code start ++ text ++ code stop else text

def red (s : Style) (text : String) : String := s.between "31" "0" text

def green (s : Style) (text : String) : String := s.between "32" "0" text

def yellow (s : Style) (text : String) : String := s.between "33" "0" text

def cyan (s : Style) (text : String) : String := s.between "36" "0" text

def boldCyan (s : Style) (text : String) : String := s.between "36;1" "0;22" text

def boldGreen (s : Style) (text : String) : String := s.between "32;1" "0;22" text

end Style

/-- A text filled up with blanks to a width. -/
def padRight (width : Nat) (s : String) : String :=
  s ++ String.ofList (List.replicate (width - s.length) ' ')

/-- The width of a column. -/
def columnWidth (cells : List String) : Nat := (cells.map String.length).foldl max 0 + 2

/-- Rows of three cells with the first two columns aligned. -/
def alignRows (rows : List (String × String × String)) : String :=
  let first := columnWidth (rows.map fun (a, _, _) => a)
  let second := columnWidth (rows.map fun (_, b, _) => b)
  String.join (rows.map fun (a, b, c) => padRight first a ++ padRight second b ++ c ++ "\n")

end ShaderIL
