import Mathlib.Data.List.GetD
import ShaderIL.Expr.Store
import ShaderIL.Proofs.Expr.Emission

/-!
# Emission of assignments

`Stores` lists what an accepted assignment can do. A value is computed into an operand and moved to
the destination, widened to it if it is a scalar (`moveLine`); an operation of one line writes its
destination itself if the types agree; an element of the global buffer has its address computed after
the value. `LValue.store_ok` says that nothing else happens and that nothing faults.
-/

namespace ShaderIL

/-! ### Moves -/

/-- The operand repeated to the width of another one. -/
def Operand.widenedTo (o dst : Operand) : Operand :=
  if o.components == 1 && 1 < dst.components then o.picked (.broadcast .x dst.components) else o

/-- The line that moves a value to a destination. -/
def moveLine (dst value : Operand) : Instruction :=
  ⟨.mov, dst.destination, [(value.widenedTo dst).alignedTo dst]⟩

theorem LValue.accepts_spec {t u : ValueType} (h : accepts t u = true) :
    u.kind = t.kind ∧ (u.components = t.components ∨ u.components = 1) := by
  simp only [accepts, Bool.or_eq_true, beq_iff_eq, Bool.and_eq_true] at h
  rcases h with rfl | ⟨hone, hkind⟩
  · exact ⟨rfl, .inl rfl⟩
  · exact ⟨hkind, .inr hone⟩

/-- A value that is not repeated has the type of the destination. -/
theorem LValue.eq_of_accepts {t u : ValueType} (h : accepts t u = true) (ht : t.valid = true)
    (hw : ¬ (u.components == 1 && decide (1 < t.components)) = true) : u = t := by
  obtain ⟨hkind, hcomp⟩ := accepts_spec h
  have hpos := ValueType.components_pos ht
  simp only [Bool.and_eq_true, beq_iff_eq, decide_eq_true_eq, not_and] at hw
  obtain ⟨k, c⟩ := u
  obtain ⟨k', c'⟩ := t
  simp only at hkind hcomp hw hpos
  rw [hkind, show c = c' by omega]

theorem Operand.widenedTo_fits {o dst : Operand} {t u : ValueType} (ho : o.Fits u)
    (hdst : dst.Fits t) (ht : t.valid = true) (h : LValue.accepts t u = true) :
    (o.widenedTo dst).Fits t := by
  obtain ⟨hkind, -⟩ := LValue.accepts_spec h
  unfold widenedTo
  rw [ho.components_eq, hdst.components_eq]
  split_ifs with hw
  · have hfits := picked_fits (p := .broadcast .x t.components) ho
    rw [hkind] at hfits
    simpa [Swizzle.count, Swizzle.broadcast] using hfits
  · obtain rfl := LValue.eq_of_accepts h ht hw
    exact ho

theorem emitMove_eq {dst o : Operand} {t u : ValueType} (ho : o.Fits u) (hu : u.valid = true)
    (hdst : dst.Fits t) (ht : t.valid = true) (h : LValue.accepts t u = true) (d : Draft) :
    emitMove dst o d = .ok ((), d.appended [moveLine dst o]) := by
  obtain ⟨hkind, -⟩ := LValue.accepts_spec h
  unfold emitMove moveLine Operand.widenedTo
  split_ifs with hw
  · have hsplat := Operand.splat_eq ho hu (n := dst.components)
      (by rw [hkind, hdst.components_eq]; exact ht)
    rw [Emit.bind_of_ok (Emit.lift_ok hsplat d)]
    rfl
  · rfl

/-! ### Destinations -/

/-- The leading components of a register are a register of fewer components. -/
theorem Operand.picked_of_isIdentity (place : Place) {t : ValueType} {s : Swizzle}
    (ht : t.valid = true) (hs : s.isIdentity = true) (hmax : s.maxLane < t.components)
    (h4 : s.count ≤ 4) (hv : (⟨t.kind, s.count⟩ : ValueType).valid = true) :
    (ofType place t).picked s = ofType place ⟨t.kind, s.count⟩ := by
  have hw := t.laneWidth_pos
  have hlen : ((ofType place t).picked s).lanes.lanes.length = s.count * t.laneWidth :=
    count_picked (ofType place t) s
  have hlen' : (ofType place ⟨t.kind, s.count⟩).lanes.lanes.length = s.count * t.laneWidth :=
    (ofType_fits place hv).count
  have hlanes : ((ofType place t).picked s).lanes.lanes =
      (ofType place ⟨t.kind, s.count⟩).lanes.lanes := by
    refine List.ext_getElem (hlen.trans hlen'.symm) fun i hi hi' => Fin.ext ?_
    have hi'' : i < s.count * t.laneWidth := hlen ▸ hi
    have hk : i / t.laneWidth < s.count := (Nat.div_lt_iff_lt_mul hw).mpr hi''
    have hval := val_getD_picked_ofType place ht hmax hk (Nat.mod_lt i hw)
    rw [Swizzle.getD_of_isIdentity hs h4 hk, Nat.mul_comm, Nat.div_add_mod] at hval
    have hval' := val_getD_ofType place hv hi''
    rw [List.getD_eq_getElem _ _ hi] at hval
    rw [List.getD_eq_getElem _ _ hi'] at hval'
    exact hval.trans hval'.symm
  exact congrArg (fun l => (⟨place, ⟨l⟩, t.laneWidth⟩ : Operand)) hlanes

namespace LValue

/-- The operand of a destination in a register. -/
def operand? : LValue → Option Operand
  | var v => v.home.map fun h => Operand.ofType (.temp h.register) v.declared
  | view v mask =>
    match v.home, v.viewLanes mask with
    | some h, .ok s => some ((Operand.ofType (.temp h.register) v.declared).picked s)
    | _, _ => none
  | element _ _ => none

/-- The overload of a value that writes its destination straight away. -/
def direct? (e : Expr) : LValue → Option Overload
  | var v => e.direct? v.declared
  | view v mask =>
    match v.viewLanes mask with
    | .ok s => if s.isIdentity then e.direct? (v.viewType mask) else none
    | .error _ => none
  | element _ _ => none

/-- What an accepted assignment can do to a draft. -/
inductive Stores (target : Target) (e : Expr) (d : Draft) : LValue → Draft → Prop
  | moved {dst D o d1} (hdst : operand? dst = some D) (hemit : e.emit target d = .ok (o, d1))
      (hdirect : direct? e dst = none) :
    Stores target e d dst (d1.appended [moveLine D o])
  | direct {dst r f args d1} (hf : e.overload? = some f) (hsingle : f.single = true)
      (hdst : operand? dst = some (Operand.ofType (.temp r) f.result)) (htype : f.result = dst.type)
      (hemit : Expr.emitAll target e.children d = .ok (args, d1)) (hdirect : direct? e dst = some f) :
    Stores target e d dst
      (d1.appended (f.lines (Operand.ofType (.temp r) f.result) args d1.next))
  | elementAt {t offset o d1} (hemit : e.emit target d = .ok (o, d1)) :
    Stores target e d (.element t ⟨none, offset⟩)
      ({ d1 with usesGlobal := true }.appended [moveLine (elementAtOperand t offset) o])
  | element {t b offset o d1 base d2} (hemit : e.emit target d = .ok (o, d1))
      (hbase : b.emit target { d1 with usesGlobal := true } = .ok (base, d2)) :
    Stores target e d (.element t ⟨some b, offset⟩)
      (d2.appended [moveLine (elementOperand t base offset) o])

variable {target : Target} {unit : UnitId} {e : Expr} {dst : LValue}

/-- The operand of a destination: whole lanes of a register, none of them twice. -/
theorem operand?_fits (hdst : dst.toExpr.Accepted unit) {D : Operand} (hD : dst.operand? = some D) :
    (∃ r, D.place = .temp r) ∧ D.Fits dst.type ∧ D.lanes.lanes.Nodup := by
  have ht : dst.type.valid = true := hdst.typed.type_valid
  cases dst with
  | var v =>
    obtain ⟨hd, r, hh⟩ := Variable.errors_eq_nil hdst.clean
    simp only [operand?, hh, Option.map_some, Option.some.injEq] at hD
    subst hD
    rw [show (LValue.var v).type = v.declared from if_pos hd]
    exact ⟨⟨r, rfl⟩, Operand.ofType_fits _ hd,
      (List.nodup_finRange 4).sublist (List.take_sublist _ _)⟩
  | view v mask =>
    obtain ⟨-, r, hh⟩ := Variable.errors_eq_nil (List.append_eq_nil_iff.mp hdst.clean).1
    obtain ⟨hd, s, hs, -, htype⟩ := Variable.viewType_valid ht
    obtain ⟨hmax, -, -, hnodup⟩ := Variable.viewLanes_spec hd hs
    simp only [operand?, hh, hs, Option.some.injEq] at hD
    subst hD
    rw [show (LValue.view v mask).type = _ from htype]
    exact ⟨⟨r, rfl⟩, Operand.picked_fits (Operand.ofType_fits _ hd),
      Operand.nodup_picked_ofType _ hd hmax hnodup⟩
  | element t a => cases hD

theorem stores_of_emitTo (he : e.Accepted unit) {D : Operand} (hD : dst.operand? = some D)
    (hfits : D.Fits dst.type) (ht : dst.type.valid = true) (hacc : accepts dst.type e.type = true)
    (hdirect : ∀ f, dst.direct? e = some f → e.overload? = some f ∧ f.single = true ∧
      f.result = dst.type ∧ ∃ r, D = Operand.ofType (.temp r) f.result) (d : Draft) :
    ∃ d', emitTo target D (dst.direct? e) e d = .ok ((), d') ∧ Stores target e d dst d' := by
  cases hd : dst.direct? e with
  | none =>
    obtain ⟨o, d1, hemit, ho⟩ := he.emit_ok target d
    refine ⟨d1.appended [moveLine D o], ?_, .moved hD hemit hd⟩
    rw [emitTo, Emit.bind_of_ok hemit, emitMove_eq ho he.typed.type_valid hfits ht hacc]
  | some f =>
    obtain ⟨hf, hsingle, hresult, r, rfl⟩ := hdirect f hd
    obtain ⟨hs, hargs, -, hoperands⟩ := Expr.overload?_spec hf
    obtain ⟨args, d1, hemit, hfitting⟩ := Expr.emitAll_ok target e.children d
      fun x hx d => (he.child hx).emit_ok target d
    have hinto := Overload.emitInto_eq hs (Operand.ofType_fits (.temp r) hs.result_valid)
      (Expr.Fitting.fits_args hargs hfitting) d1
    refine ⟨_, ?_, .direct hf hsingle hD hresult hemit hd⟩
    rw [emitTo, hoperands, Emit.bind_of_ok hemit, hinto, hs.scratch_of_single hsingle]
    rfl

theorem direct?_spec {t : ValueType} {f : Overload} (h : e.direct? t = some f) :
    e.overload? = some f ∧ f.single = true ∧ f.result = t := by
  simp only [Expr.direct?, Option.filter_eq_some_iff, Bool.and_eq_true, beq_iff_eq] at h
  exact ⟨h.1, h.2.1, h.2.2⟩

/-- An accepted assignment never faults. -/
theorem store_ok (he : e.Accepted unit) (hdst : dst.toExpr.Accepted unit)
    (hacc : accepts dst.type e.type = true) (d : Draft) :
    ∃ d', dst.store target e d = .ok ((), d') ∧ Stores target e d dst d' := by
  have ht : dst.type.valid = true := hdst.typed.type_valid
  cases dst with
  | var v =>
    obtain ⟨hd, r, hh⟩ := Variable.errors_eq_nil hdst.clean
    have htype : (LValue.var v).type = v.declared := if_pos hd
    have hD : (LValue.var v).operand? = some (Operand.ofType (.temp r) v.declared) := by
      simp [operand?, hh]
    rw [store, Emit.bind_of_ok (Variable.operand_ok hh d)]
    have hfits : (Operand.ofType (.temp r) v.declared).Fits (LValue.var v).type := by
      rw [htype]
      exact Operand.ofType_fits _ hd
    refine stores_of_emitTo he hD hfits ht hacc (fun f hf => ?_) d
    obtain ⟨hover, hsingle, hresult⟩ := direct?_spec hf
    exact ⟨hover, hsingle, hresult.trans htype.symm, r, by rw [hresult]⟩
  | view v mask =>
    obtain ⟨-, r, hh⟩ := Variable.errors_eq_nil (List.append_eq_nil_iff.mp hdst.clean).1
    obtain ⟨hd, s, hs, hvec, htype⟩ := Variable.viewType_valid ht
    obtain ⟨hmax, -, h4, -⟩ := Variable.viewLanes_spec hd hs
    have hfits := Operand.ofType_fits (.temp r) hd
    have hop : v.viewOperand mask d =
        .ok ((Operand.ofType (.temp r) v.declared).picked s, d) := by
      rw [Variable.viewOperand, Emit.bind_of_ok (orFault_ok hs d),
        Emit.bind_of_ok (Variable.operand_ok hh d)]
      exact Emit.lift_ok (Operand.select_eq hfits hd hmax hvec) d
    have hD : (LValue.view v mask).operand? =
        some ((Operand.ofType (.temp r) v.declared).picked s) := by
      simp [operand?, hh, hs]
    have hfits' : ((Operand.ofType (.temp r) v.declared).picked s).Fits
        (LValue.view v mask).type := by
      rw [show (LValue.view v mask).type = _ from htype]
      exact Operand.picked_fits hfits
    have hdirect : (LValue.view v mask).direct? e =
        if s.isIdentity then e.direct? (v.viewType mask) else none := by
      simp [direct?, hs]
    rw [store, Emit.bind_of_ok (orFault_ok hs d), Emit.bind_of_ok hop, ← hdirect]
    refine stores_of_emitTo he hD hfits' ht hacc (fun f hf => ?_) d
    rw [hdirect, Option.ite_none_right_eq_some] at hf
    obtain ⟨hid, hf⟩ := hf
    obtain ⟨hover, hsingle, hresult⟩ := direct?_spec hf
    refine ⟨hover, hsingle, hresult, r, ?_⟩
    rw [hresult, htype, Operand.picked_of_isIdentity _ hd hid hmax h4 hvec]
  | element t a =>
    obtain ⟨base, offset⟩ := a
    obtain ⟨o, d1, hemit, ho⟩ := he.emit_ok target d
    cases base with
    | none =>
      have htype : (LValue.element t ⟨none, offset⟩).type = t := Expr.type_elementAt ht
      rw [htype] at ht hacc
      refine ⟨_, ?_, .elementAt hemit⟩
      rw [store, Emit.bind_of_ok hemit]
      exact emitMove_eq ho he.typed.type_valid (Operand.ofType_fits _ ht) ht hacc
        { d1 with usesGlobal := true }
    | some b =>
      have htype : (LValue.element t ⟨some b, offset⟩).type = t := Expr.type_element ht
      rw [htype] at ht hacc
      have hb : b.Accepted unit :=
        hdst.child (by simp [toExpr, Address.element, Expr.children])
      obtain ⟨base, d2, hbase, -⟩ := hb.emit_ok target { d1 with usesGlobal := true }
      refine ⟨_, ?_, .element hemit hbase⟩
      have hmove := emitMove_eq ho he.typed.type_valid
        (Operand.ofType_fits (.globalFrom base.place base.lanes offset) ht) ht hacc d2
      rw [store, Emit.bind_of_ok hemit]
      change (b.emit target >>= fun base => emitMove (elementOperand t base offset) o)
        { d1 with usesGlobal := true } = _
      rw [Emit.bind_of_ok hbase]
      exact hmove

theorem stores {d d' : Draft} (he : e.Accepted unit) (hdst : dst.toExpr.Accepted unit)
    (hacc : accepts dst.type e.type = true) (hstore : dst.store target e d = .ok ((), d')) :
    Stores target e d dst d' := by
  obtain ⟨d'', hstore', hstores⟩ : ∃ d'', dst.store target e d = .ok ((), d'') ∧
    Stores target e d dst d'' := store_ok he hdst hacc d
  rw [hstore] at hstore'
  cases hstore'
  exact hstores

end LValue

end ShaderIL
