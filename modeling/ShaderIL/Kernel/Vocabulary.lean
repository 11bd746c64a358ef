import ShaderIL.Compile

/-!
# Words for writing kernels

Kernels work on integers and single components most of the time. The functions here are the forms in
which the kernels of this library are written.
-/

namespace ShaderIL

/-- Assign to a variable. -/
def Statement.set (v : Variable) (e : Expr) : Statement := .assign (some (.var v)) e

namespace Expr

/-- An integer in every component of a type. -/
def ofInt (t : ValueType) (n : Int) : Expr := .literal (Literal.const t (.word n))

/-- Integers as the components of a type. -/
def ofInts (t : ValueType) (ns : List Int) : Expr :=
  .literal (Literal.ofValues t (ns.map Host.word))

/-- An operation on an expression and an integer. -/
def withInt (op : BinaryOp) (e : Expr) (n : Int) : Expr :=
  .binary op e (ofArg e.type (.const (.word n)))

/-- A component of a variable. -/
def component (v : Variable) (lane : Lane) : Expr := pick (.var v) ⟨[lane]⟩

/-- A component of a variable four times. -/
def spread (v : Variable) (lane : Lane) : Expr := pick (.var v) (.broadcast lane 4)

/-- A sample of an input at two coordinates. -/
def texel (i : Input) (x y : Expr) : Expr := .sample i (.binary .merge x y)

end Expr

end ShaderIL
