/-!
# Letter case in names

Keywords and keys are made of ASCII letters, digits and underscores. To compare a text with one of
them only those characters matter whose lower-case form, or whose case-insensitive partner, is an
ASCII letter: besides the ASCII capitals these are the dotted capital I for the lower-case form, and
the long s and the Kelvin sign for case-insensitive comparison.
-/

namespace ShaderIL.Text

/-- The lower-case form of a character as far as it is an ASCII letter. -/
def lowerChar (c : Char) : Char :=
  if c.toNat == 0x130 then 'i' else if c.toNat == 0x212a then 'k' else c.toLower

/-- The representative of a character under case-insensitive comparison with ASCII letters. -/
def foldChar (c : Char) : Char :=
  if c.toNat == 0x17f then 's' else if c.toNat == 0x212a then 'k' else c.toLower

/-- The text equals a lower-case ASCII keyword once it is written in lower case. -/
def lowersTo (s keyword : String) : Bool :=
  s.toList.map lowerChar == keyword.toList

/-- The text equals a lower-case ASCII name up to letter case. -/
def foldsTo (s name : String) : Bool :=
  s.toList.map foldChar == name.toList

end ShaderIL.Text
