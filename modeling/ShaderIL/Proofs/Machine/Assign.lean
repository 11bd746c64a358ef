import ShaderIL.Proofs.Assembler.Run
import ShaderIL.Proofs.Expr.Assignment
import ShaderIL.Proofs.Machine.Simulation

/-!
# Assignments preserve meaning

The code of an accepted assignment to a variable or to lanes of one gives each component of the
destination the value that the component of the expression had before the code ran, or its only
component if it is a scalar, and changes nothing else but fresh registers. A line that writes its
destination straight away reads all its operands first, so the destination may occur in the
expression.
-/

namespace ShaderIL

/-! ### Moves -/

namespace Contents.Carries

variable {m : Machine} {σ : Contents} {n r : Nat} {o D : Operand} {t u : ValueType} {x : Value}

theorem widenedTo (h : σ.Carries n o u x) (hu : u.valid = true) (hD : D.Fits t)
    (ht : t.valid = true) (hacc : LValue.accepts t u = true) :
    σ.Carries n (o.widenedTo D) t (x.spread u) := by
  obtain ⟨hkind, -⟩ := LValue.accepts_spec hacc
  have hfits := Operand.widenedTo_fits h.fits hD ht hacc
  unfold Operand.widenedTo at hfits ⊢
  rw [h.fits.components_eq, hD.components_eq] at hfits ⊢
  split_ifs at hfits ⊢ with hw
  · have hb := h.broadcast hu t.components
    rw [hkind] at hb
    simp only [Bool.and_eq_true, beq_iff_eq] at hw
    refine ⟨hfits, hb.holds.congr fun k _ j _ => ?_, hb.settled⟩
    rw [Value.spread, if_pos hw.1]
  · obtain rfl := LValue.eq_of_accepts hacc ht hw
    refine ⟨h.fits, h.holds.congr fun k hk j _ => ?_, h.settled⟩
    rw [Value.spread_of_lt hk]

theorem holds_move (h : σ.Carries n o u x) (hu : u.valid = true) (hD : D.Fits t)
    (ht : t.valid = true) (hacc : LValue.accepts t u = true) (hplace : D.place = .temp r)
    (hnodup : D.lanes.lanes.Nodup) :
    (m.step σ (moveLine D o)).Holds D t (x.spread u) := by
  refine Machine.step_holds hD hplace fun k hk j hj => ?_
  have hsupply := (h.widenedTo hu hD ht hacc).supply_aligned (m := m) hD.count ht hnodup
    (ValueType.lane_lt hk hj)
  rw [Operand.mul_add_div_of_lt hj, Operand.mul_add_mod_of_lt hj] at hsupply
  exact hsupply

end Contents.Carries

/-! ### Destinations -/

/-- The state after an assignment: the destination has the value the tree had before, a scalar in all
components; apart from that only temporaries from `n` on differ. -/
structure Contents.Assigned (m : Machine) (target : Target) (n : Nat) (dst : LValue) (e : Expr)
    (σ σ' : Contents) : Prop where
  value : ∀ k < dst.type.components, ∀ j < dst.type.laneWidth,
    dst.toExpr.value m target σ' k j =
      e.value m target σ (if e.type.components = 1 then 0 else k) j
  frame : ∀ c l, (∀ r, c = .register (.temp r) → r < n) →
    (∀ D, dst.operand? = some D → c = .register D.place → D.mask.has l = false) → σ' c l = σ c l

namespace LValue

variable {m : Machine} {target : Target} {σ σ' : Contents} {unit : UnitId} {dst : LValue} {e : Expr}
  {D : Operand} {d d' : Draft}

/-- What the operand of a destination holds is the value of the destination. -/
theorem operand?_holds (hdst : dst.toExpr.Accepted unit) (hD : dst.operand? = some D)
    (m : Machine) (target : Target) (σ : Contents) :
    σ.Holds D dst.type (dst.toExpr.value m target σ) := by
  cases dst with
  | var v =>
    obtain ⟨hd, r, hh⟩ := Variable.errors_eq_nil hdst.clean
    simp only [operand?, hh, Option.map_some, Option.some.injEq] at hD
    subst hD
    rw [show (LValue.var v).type = v.declared from if_pos hd]
    exact (v.carries hd hh (Nat.lt_succ_self _)).holds
  | view v mask =>
    obtain ⟨-, r, hh⟩ := Variable.errors_eq_nil (List.append_eq_nil_iff.mp hdst.clean).1
    obtain ⟨hd, s, hs, -, htype⟩ := Variable.viewType_valid hdst.typed.type_valid
    simp only [operand?, hh, hs, Option.some.injEq] at hD
    subst hD
    rw [show (LValue.view v mask).type = _ from htype]
    exact (v.carries_view hd hh hs (Nat.lt_succ_self _)).holds
  | element t a => cases hD

/-- Code into fresh registers and the lanes of the destination makes an assignment if it leaves the
value in the destination. -/
theorem assigned_of_holds {is js : List Instruction} (hdst : dst.toExpr.Accepted unit)
    (hD : dst.operand? = some D) (his : d.Extends d' is)
    (hjs : ∀ i ∈ js, i.dst.place = D.place ∧ ∀ l, i.dst.mask.has l = true → D.mask.has l = true)
    (h : (m.run σ (is ++ js)).Holds D dst.type ((e.value m target σ).spread e.type)) :
    Contents.Assigned m target d.next dst e σ (m.run σ (is ++ js)) := by
  obtain ⟨⟨r, hr⟩, -, -⟩ := operand?_fits hdst hD
  refine ⟨fun k hk j hj => ?_, fun c l hc hl => Machine.run_apart fun i hi => ?_⟩
  · rw [← operand?_holds hdst hD m target _ k hk j hj, h k hk j hj]
    rfl
  · rcases List.mem_append.mp hi with hi | hi
    · obtain ⟨q, hq, hle, -⟩ := his.fresh i hi
      refine ⟨q, hq, .inl ?_⟩
      rintro rfl
      exact absurd (hc q rfl) (by omega)
    · obtain ⟨hplace, hmask⟩ := hjs i hi
      refine ⟨r, hplace.trans hr, ?_⟩
      by_cases hcr : c = .register (.temp r)
      · refine .inr ?_
        have hfree := hl D hD (by rw [hcr, hr])
        by_contra hhas
        rw [hmask l (by simpa using hhas)] at hfree
        cases hfree
      · exact .inl hcr

/-- The code of an assignment to a register. -/
theorem Stores.assigned (h : Stores target e d dst d') (hreg : ∀ t a, dst ≠ LValue.element t a)
    (he : e.Accepted unit) (hext : e.ExternalFree) (hvars : e.VarsBelow d.next)
    (hdst : dst.toExpr.Accepted unit) (hacc : accepts dst.type e.type = true) :
    ∃ is, d'.code.toList = d.code.toList ++ is.map Line.instruction ∧
      ∀ (m : Machine) (σ : Contents), σ.Numbered d'.literals →
        Contents.Assigned m target d.next dst e σ (m.run σ is) := by
  cases h with
  | @moved _ D o d1 hD hemit =>
    obtain ⟨is, his, hcomp⟩ := he.emit_computes hemit
    obtain ⟨⟨r, hr⟩, hfits, hnodup⟩ := operand?_fits hdst hD
    refine ⟨is ++ [moveLine D o], ?_, fun m σ hload => ?_⟩
    · rw [Draft.appended_code_toList, his.code, List.map_append, List.append_assoc]
    · refine assigned_of_holds hdst hD his ?_ ?_
      · intro i hi
        rw [List.mem_singleton.mp hi]
        exact ⟨rfl, fun l hl => hl⟩
      · have hcarries := hcomp hext hvars m σ hload
        rw [Machine.run_append]
        exact hcarries.holds_move he.typed.type_valid hfits hdst.typed.type_valid hacc hr hnodup
  | @direct _ r f args d1 hf hsingle hD htype hemit =>
    obtain ⟨hs, -, hresult, -⟩ := Expr.overload?_spec hf
    obtain ⟨is, his, hcomp⟩ := Expr.emitAll_computes (fun x hx => he.child hx) hemit
    refine ⟨is ++ f.lines (.ofType (.temp r) f.result) args d1.next, ?_, fun m σ hload => ?_⟩
    · rw [Draft.appended_code_toList, his.code, List.map_append, List.append_assoc]
    · refine assigned_of_holds hdst hD his ?_ ?_
      · intro i hi
        rcases Overload.lines_dst hs (Operand.ofType_fits _ hs.result_valid) hi with
          hlane | ⟨q, hq, -⟩
        · exact hlane
        · rw [hs.scratch_of_single hsingle] at hq
          cases hq
      · -- the operands carry the values of the children, whatever register the line writes
        have hargs := hcomp (fun x hx => hext.child hx) (fun x hx => hvars.child hx) m σ hload
        have hσ := his.agree m σ
        have hvalues : e.children.map (Expr.value m target σ) =
            e.children.map (Expr.value m target (m.run σ is)) :=
          List.map_congr_left fun x hx => (Expr.value_congr hσ (hvars.child hx)).symm
        rw [hvalues] at hargs
        have hholds := Expr.operation_holds r d1.next hf (.inl hsingle) hargs
        rw [Machine.run_append, ← htype]
        refine hholds.congr fun k hk j _ => ?_
        rw [Expr.value_congr hσ hvars, Value.spread_of_lt (hresult ▸ hk)]
  | elementAt => exact absurd rfl (hreg _ _)
  | element => exact absurd rfl (hreg _ _)

end LValue

/-! ### Statements -/

end ShaderIL
