import ShaderIL.Number.Host

/-!
# Literals

A literal register holds four words, a `Quad`. A `Literal` is a constant value of a type with the
words it is declared by, or the reason why it has none. The words of a value narrower than a
register are repeated, so that every lane is defined whatever a swizzle reads.
-/

namespace ShaderIL

/-- The four words of a literal register. -/
structure Quad where
  x : UInt32
  y : UInt32
  z : UInt32
  w : UInt32
  deriving DecidableEq, Repr

namespace Quad

/-- Four zero words. -/
def zero : Quad := ⟨0, 0, 0, 0⟩

/-- The words of a list, repeated from the start until there are four. -/
def cycle (words : List UInt32) : Quad :=
  let word (i : Nat) : UInt32 := words.getD (i % words.length) 0
  ⟨word 0, word 1, word 2, word 3⟩

/-- The four words in order. -/
def toList (q : Quad) : List UInt32 := [q.x, q.y, q.z, q.w]

end Quad

/-- A constant value. The words are all zero if there is an error. -/
structure Literal where
  declared : ValueType
  bits : Quad
  error : Option Error
  deriving DecidableEq, Repr

namespace Literal

/-- The type of a literal; a literal with an error has none. -/
def type (l : Literal) : ValueType := if l.error.isSome then .invalid else l.declared

/-- A literal that could not be made. -/
def failed (t : ValueType) (e : Error) : Literal := ⟨t, .zero, some e⟩

/-- The words of several values one after the other. -/
def wordsOf (kind : Kind) : List Host → Except LiftError (List UInt32)
  | [] => .ok []
  | k :: ks => do return (← k.words kind) ++ (← wordsOf kind ks)

/-- A literal of a type with one value per component. -/
def ofValues (t : ValueType) (values : List Host) : Literal :=
  if !t.valid then failed t .literalType
  else if values.length != t.components then failed t (.literalCount t values.length)
  else
    match wordsOf t.kind values with
    | .error cause => failed t (.literalRange t cause)
    | .ok words => ⟨t, .cycle words, none⟩

/-- A literal of a type with the same value in every component. -/
def const (t : ValueType) (k : Host) : Literal := ofValues t (List.replicate t.components k)

/-- A constant at the type of its companion. Without a type there is no value to give, but the
companion has an error of its own to show, so none is added. -/
def lift (k : Host) (like : ValueType) : Literal :=
  if like.valid then const like k else ⟨.invalid, .zero, none⟩

end Literal

end ShaderIL
