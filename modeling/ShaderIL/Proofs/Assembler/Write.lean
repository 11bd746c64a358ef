import ShaderIL.Proofs.Assembler.Effect
import ShaderIL.Proofs.Expr.Yield

/-!
# What statements write from a mark on

`Assembler.Adds` says what statements add wherever a unit has got to, so it leaves the registers and the
literals of their lines open. `Assembler.Writes` starts from a known `Draft.Mark` and gives the lines
themselves. Such effects follow one another (`Writes.append`), and a list of statements that is repeated
writes one round after the other (`Writes.rounds`).
-/

namespace ShaderIL

open Draft (Mark)

/-! ### Assignments -/

namespace LValue.Stores

open Expr

variable {target : Target} {unit : UnitId} {e b : Expr} {dst : LValue} {t u : ValueType} {d d' : Draft}
  {p p₁ q : Mark} {o base D : Operand} {is js : List Instruction}

theorem gets_moved (h : Stores target e d dst d') (he : Yields target unit e t p o is q)
    (hd : d.mark = p) (hD : dst.operand? = some D) (hdirect : dst.direct? e = none) :
    d.Gets (is ++ [moveLine D o]) q d' := by
  cases h with
  | moved hD' hemit =>
    rw [hD] at hD'
    cases hD'
    obtain ⟨rfl, hgets⟩ := he.emits hd hemit
    exact hgets.appended _
  | direct _ _ _ _ _ hdirect' =>
    rw [hdirect] at hdirect'
    cases hdirect'
  | elementAt | element => cases hD

theorem gets_direct {f : Overload} {args : List Operand} {r : Nat} (h : Stores target e d dst d')
    (hf : e.overload? = some f) (hall : YieldsAll target unit e.children p args is q)
    (hd : d.mark = p) (hD : dst.operand? = some (Operand.ofType (.temp r) f.result))
    (hdirect : dst.direct? e = some f) :
    d.Gets (is ++ f.lines (Operand.ofType (.temp r) f.result) args q.next) q d' := by
  cases h with
  | moved _ _ hdirect' =>
    rw [hdirect] at hdirect'
    cases hdirect'
  | @direct _ _ _ _ d₁ hf' _ hD' _ hemit =>
    rw [hf] at hf'
    cases hf'
    rw [hD] at hD'
    rw [← Option.some.inj hD']
    obtain ⟨rfl, hgets⟩ := hall.emits hd hemit
    have hnext : d₁.next = q.next := congrArg Mark.next hgets.mark_eq
    rw [hnext]
    exact hgets.appended _
  | elementAt | element => cases hD

theorem gets_element {offset : Int64} (h : Stores target e d (.element t ⟨some b, offset⟩) d')
    (he : Yields target unit e t p o is p₁) (hb : Yields target unit b u p₁ base js q)
    (hd : d.mark = p) : d.Gets (is ++ js ++ [moveLine (elementOperand t base offset) o]) q d' := by
  cases h with
  | moved hD => cases hD
  | direct _ _ hD => cases hD
  | @element _ _ _ _ d₁ _ _ hemit hemit' =>
    obtain ⟨rfl, hgets⟩ := he.emits hd hemit
    have hnoted : d.Gets is p₁ { d₁ with usesGlobal := true } := ⟨hgets.mark_eq, hgets.code⟩
    obtain ⟨rfl, hgets'⟩ := hb.emits hnoted.mark_eq hemit'
    exact (hnoted.trans hgets').appended _

end LValue.Stores

namespace Assembler

open Expr

/-- From the mark `p` the statements add the lines `ls` and lead to `q`. -/
def Writes (target : Target) (unit : UnitId) (flow : List Block) (sts : List Statement) (p : Mark)
    (ls : List Line) (q : Mark) : Prop :=
  ∀ s : Assembler, s.Open target unit flow → s.draft.mark = p →
    ∃ k s', s.Makes sts k ls s' ∧ s'.draft.mark = q

variable {target : Target} {unit : UnitId} {flow : List Block} {sts sts' : List Statement}
  {p q r : Mark} {ls ls' : List Line}

namespace Writes

theorem nil : Writes target unit flow [] p [] p :=
  fun s _ hp => ⟨0, s, ⟨⟨[], rfl⟩, rfl, rfl, by simp, by simp⟩, hp⟩

theorem append (h : Writes target unit flow sts p ls q) (h' : Writes target unit flow sts' q ls' r) :
    Writes target unit flow (sts ++ sts') p (ls ++ ls') r := by
  intro s hs hp
  obtain ⟨k, s₁, hmakes, hq⟩ := h s hs hp
  obtain ⟨k', s', hmakes', hr⟩ := h' s₁ (hmakes.isOpen hs) hq
  exact ⟨k + k', s', hmakes.trans hmakes', hr⟩

/-- **Statements that are repeated** write one round after the other. -/
theorem rounds {f : Nat → Mark} {lines : Nat → List Line}
    (h : ∀ i, Writes target unit flow sts (f i) (lines i) (f (i + 1))) (n : Nat) :
    Writes target unit flow (List.replicate n sts).flatten (f 0) ((List.range n).flatMap lines)
      (f n) := by
  induction n with
  | zero => exact nil
  | succ n ih =>
    rw [List.replicate_succ', List.flatten_concat, List.range_succ, List.flatMap_append,
      List.flatMap_singleton]
    exact ih.append (h n)

/-! ### Flow -/

theorem loop (h : Writes target unit (.loop :: flow) sts p ls q) :
    Writes target unit flow (.whileLoop :: sts ++ [.endLoop]) p
      (.word .whileLoop :: ls ++ [.word .endLoop]) q := by
  intro s hs hp
  obtain ⟨k, s', hmakes, hq⟩ := h s.looping hs.looping hp
  exact ⟨k, _, hmakes.loop hs, hq⟩

theorem breakIf {c : Expr} {o : Operand} {is : List Instruction}
    (hc : Yields target unit c .bool1 p o is q) (hloop : flow.contains .loop = true) :
    Writes target unit flow [.breakIf c] p (is.map .instruction ++ [.test .breakTrue o.source]) q := by
  intro s hs hp
  obtain ⟨k, ms, hcosts⟩ := hc.costs
  obtain ⟨o', d, hemit, -⟩ := hcosts.accepted.emit_ok target s.draft
  obtain ⟨rfl, hgets⟩ := hc.emits hp hemit
  obtain ⟨js, hmakes, hcode, -⟩ := Makes.breakIf hs hcosts hloop hemit
  have hlines : is.map Line.instruction = js.map .instruction :=
    List.append_cancel_left (hgets.code.symm.trans hcode)
  rw [hlines]
  exact ⟨k, _, hmakes, hgets.mark_eq⟩

/-! ### Assignments -/

variable {dst : LValue} {e : Expr} {t : ValueType} {o D : Operand} {is : List Instruction}

/-- What an assignment writes is known from what it stores. -/
theorem of_adds {k : Nat} {P : List Line → Prop} (he : e.Accepted unit)
    (hdst : dst.toExpr.Accepted unit) (hacc : LValue.accepts dst.type e.type = true)
    (hadds : Adds target unit flow [.assign (some dst) e] k P)
    (h : ∀ {d d' : Draft}, LValue.Stores target e d dst d' → d.mark = p → d.Gets is q d') :
    Writes target unit flow [.assign (some dst) e] p (is.map .instruction) q := by
  intro s hs hp
  obtain ⟨ls, s', hmakes, -⟩ := hadds s hs
  obtain ⟨os, hruns⟩ := hmakes.runs
  obtain ⟨o, s₁, os', hexec, hnil, -⟩ := execAll_cons_ok.mp hruns
  cases hnil
  obtain ⟨hphase, hreport, rfl, rfl, -⟩ := hs
  cases exec_does hphase hreport hexec (by rw [hmakes.frame]; exact hreport) with
  | assign _ hstore =>
    have hgets := h (LValue.stores he hdst hacc hstore) hp
    have hlines : ls = is.map .instruction :=
      List.append_cancel_left (hmakes.code.symm.trans hgets.code)
    rw [← hlines]
    exact ⟨k, _, hmakes, hgets.mark_eq⟩
  | word hw => cases hw
  | test ht => cases ht

theorem move (he : Yields target unit e t p o is q) (hdst : dst.toExpr.Accepted unit)
    (hD : dst.operand? = some D) (hacc : LValue.accepts dst.type t = true)
    (hdirect : dst.direct? e = none) : Writes target unit flow [.assign (some dst) e] p
      ((is ++ [moveLine D o]).map .instruction) q := by
  obtain ⟨k, ms, hcosts⟩ := he.costs
  exact of_adds hcosts.accepted hdst (by rw [hcosts.type_eq]; exact hacc)
    (Adds.move hcosts hdst hD hacc hdirect) fun h hp => h.gets_moved he hp hD hdirect

theorem write {f : Overload} {args : List Operand} {r : Nat} (hf : e.overload? = some f)
    (hall : YieldsAll target unit e.children p args is q) (hdst : dst.toExpr.Accepted unit)
    (hD : dst.operand? = some (Operand.ofType (.temp r) f.result)) (hresult : dst.type = f.result)
    (hdirect : dst.direct? e = some f) : Writes target unit flow [.assign (some dst) e] p
      ((is ++ f.lines (Operand.ofType (.temp r) f.result) args q.next).map .instruction) q := by
  obtain ⟨ts, k, ms, hcosts⟩ := hall.costs
  have he := Costs.operation hf hcosts
  have hacc : LValue.accepts dst.type e.type = true := by
    rw [he.type_eq, hresult]
    simp [LValue.accepts]
  exact of_adds he.accepted hdst hacc (Adds.write_computes hf hcosts hdst hD hresult hdirect)
    fun h hp => h.gets_direct hf hall hp hD hdirect

end Writes

end Assembler

end ShaderIL
