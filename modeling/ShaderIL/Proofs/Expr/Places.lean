import ShaderIL.Proofs.Expr.Uses

/-!
# Places in the code of a tree

A `PlaceSort` is a sort of places that emission does not leave: registers are of it, and elements of
the global buffer whose base is of it. If the leaves of a tree that are given by a text stand at places
of the sort, then so do its operand and all operands in its code, whether or not the tree has a type
everywhere (`Expr.emit_stays`). The same holds for assignments (`LValue.store_stays`).
-/

namespace ShaderIL

/-- A sort of places that emission does not leave. An operand that is handed on is at a register; a line
may also have an element of the global buffer. -/
structure PlaceSort where
  operand : Place → Prop
  code : Place → Prop
  temp : ∀ n, operand (.temp n)
  literal : ∀ n, operand (.literal n)
  threadId : operand .threadId
  code_of_operand : ∀ p, operand p → code p
  window : code .windowPosition
  globalAt : ∀ offset, code (.globalAt offset)
  globalFrom : ∀ base lanes offset, operand base → code (.globalFrom base lanes offset)

variable {S : PlaceSort}

/-- The places of the instruction are of the sort, and its mask is that of lanes. -/
structure Instruction.In (S : PlaceSort) (i : Instruction) : Prop where
  dst : S.code i.dst.place
  mask : ∃ lanes, i.dst.mask = WriteMask.ofSwizzle lanes
  srcs : ∀ s ∈ i.srcs, S.code s.place

/-- The places of the line are of the sort. -/
def Line.In (S : PlaceSort) : Line → Prop
  | instruction i => i.In S
  | test _ c => S.code c.place
  | word _ | comment _ => True

theorem Instruction.On.inSort {i : Instruction} {os : List Operand} (h : i.On os)
    (hos : ∀ y ∈ os, S.code y.place) : i.In S := by
  obtain ⟨x, hdst, y, hy, hxy⟩ := h.dst
  refine ⟨?_, ⟨x.lanes, by rw [hdst]; rfl⟩, fun s hs => ?_⟩
  · have hplace : i.dst.place = y.place := by rw [hdst, ← hxy]; rfl
    rw [hplace]
    exact hos y hy
  · obtain ⟨y, hy, hsy⟩ := h.srcs s hs
    rw [hsy]
    exact hos y hy

/-- A draft went on with instructions of the sort and left operands of it. -/
def Stays (S : PlaceSort) (d : Draft) (os : List Operand) (d' : Draft) : Prop :=
  ∃ is : List Instruction, d'.code.toList = d.code.toList ++ is.map .instruction ∧ (∀ i ∈ is, i.In S) ∧
    ∀ o ∈ os, S.operand o.place

namespace Stays

variable {d d₁ d' : Draft} {os os' : List Operand}

theorem of_code_eq (hcode : d'.code = d.code) (hos : ∀ o ∈ os, S.operand o.place) : Stays S d os d' :=
  ⟨[], by simp [hcode], by simp, hos⟩

theorem append (h : Stays S d os d₁) (h' : Stays S d₁ os' d') : Stays S d (os ++ os') d' := by
  obtain ⟨is, hcode, his, hos⟩ := h
  obtain ⟨js, hcode', hjs, hos'⟩ := h'
  refine ⟨is ++ js, by rw [hcode', hcode, List.map_append, List.append_assoc], fun i hi => ?_,
    fun o ho => ?_⟩
  · exact (List.mem_append.mp hi).elim (his i) (hjs i)
  · exact (List.mem_append.mp ho).elim (hos o) (hos' o)

theorem trans (h : Stays S d os d₁) (h' : Stays S d₁ os' d') : Stays S d os' d' := by
  obtain ⟨is, hcode, his, hos⟩ := h.append h'
  exact ⟨is, hcode, his, fun o ho => hos o (List.mem_append_right _ ho)⟩

theorem operands (h : Stays S d os d') : ∀ o ∈ os, S.operand o.place := by
  obtain ⟨-, -, -, hos⟩ := h
  exact hos

theorem lines (h : Stays S d os d') {is : List Instruction}
    (hcode : d'.code.toList = d.code.toList ++ is.map .instruction) : ∀ i ∈ is, i.In S := by
  obtain ⟨js, hcode', hjs, -⟩ := h
  have hsame : is.map Line.instruction = js.map .instruction :=
    List.append_cancel_left (hcode.symm.trans hcode')
  rw [List.map_injective_iff.mpr (fun _ _ heq => Line.instruction.inj heq) hsame]
  exact hjs

theorem note (S : PlaceSort) (d : Draft) (u : Use) : Stays S d [] (d.note u) :=
  .of_code_eq (by cases u <;> rfl) (by simp)

end Stays

/-! ### The node's own part -/

section Own

variable {d d' : Draft} {o a : Operand} {args : List Operand} {u : Unit} {target : Target}

theorem Overload.emitInto_stays {f : Overload} {dst : Operand} (hdst : S.code dst.place)
    (hargs : ∀ a ∈ args, S.operand a.place) (h : f.emitInto dst args d = .ok (u, d')) :
    Stays S d [] d' := by
  obtain ⟨scratch, d₁, hscratch, h⟩ := Emit.bind_ok_iff.mp h
  rw [Draft.allocMany_eq] at hscratch
  cases hscratch
  obtain ⟨is, d₂, his, h⟩ := Emit.bind_ok_iff.mp h
  obtain ⟨his, rfl⟩ := Emit.lift_ok_iff.mp his
  cases h
  refine ⟨is, by simp, fun i hi => ?_, by simp⟩
  refine (f.emit_on his i hi).2.inSort fun y hy => ?_
  simp only [List.cons_append, List.mem_cons, List.mem_append] at hy
  rcases hy with rfl | hy | hy
  · exact hdst
  · exact S.code_of_operand _ (hargs y hy)
  · obtain ⟨j, -, rfl⟩ := List.mem_map.mp hy
    exact S.code_of_operand _ (S.temp _)

theorem Overload.emitFresh_stays {f : Option Overload} (hargs : ∀ a ∈ args, S.operand a.place)
    (h : Overload.emitFresh f args d = .ok (o, d')) : Stays S d [o] d' := by
  cases f with
  | none => exact absurd h Emit.throw_ne_ok
  | some f =>
    obtain ⟨dst, d₁, hdst, h⟩ := Emit.bind_ok_iff.mp h
    cases hdst
    obtain ⟨u, d₂, hinto, h⟩ := Emit.bind_ok_iff.mp h
    cases h
    have htemp : S.operand (.temp d.next) := S.temp _
    have hkept : Stays S d' [Operand.ofType (.temp d.next) f.result] d' :=
      .of_code_eq rfl (by simpa [Operand.ofType] using htemp)
    exact (Overload.emitInto_stays (S.code_of_operand _ htemp) hargs hinto).append hkept

theorem emitFresh_stays {m : Mnemonic} {t : ValueType} (ha : S.code a.place)
    (h : emitFresh m t a d = .ok (o, d')) : Stays S d [o] d' := by
  rw [emitFresh_eq] at h
  cases h
  have htemp : S.operand (.temp d.next) := S.temp _
  have hon : (freshLine m t a d.next).On [Operand.ofType (.temp d.next) t, a] :=
    ⟨⟨_, rfl, _, List.mem_cons_self, rfl⟩, fun s hs => ⟨a, by simp, by
      rw [List.mem_singleton.mp hs]
      rfl⟩⟩
  refine ⟨[freshLine m t a d.next], by simp [Draft.appended_code_toList], ?_,
    by simpa [Operand.ofType] using htemp⟩
  rw [List.forall_mem_singleton]
  exact hon.inSort (by simpa [Operand.ofType] using ⟨S.code_of_operand _ htemp, ha⟩)

theorem emitPosition_stays {t : ValueType} (h : emitPosition target t d = .ok (o, d')) :
    Stays S d [o] d' := by
  by_cases htarget : (target == .compute) = true
  · rw [emitPosition, if_pos htarget] at h
    obtain ⟨id, hid, h⟩ := Emit.bind_lift_ok_iff.mp h
    have hthread : S.operand id.place := by
      rw [Operand.span_place hid]
      exact S.threadId
    split_ifs at h
    · exact emitFresh_stays (S.code_of_operand _ hthread) h
    · cases h
      exact .of_code_eq rfl (by simpa using hthread)
  · rw [emitPosition, if_neg htarget, Emit.bind_of_ok (Draft.usePosition_eq d)] at h
    obtain ⟨window, hwindow, h⟩ := Emit.bind_lift_ok_iff.mp h
    obtain ⟨rounded, d₃, hrounded, h⟩ := Emit.bind_ok_iff.mp h
    have hread : S.code window.place := by
      rw [Operand.span_place hwindow]
      exact S.window
    have hfirst := (Stays.note S d .position).trans (emitFresh_stays hread hrounded)
    split_ifs at h
    · cases h
      exact hfirst
    · exact hfirst.trans (emitFresh_stays (S.code_of_operand _ (hfirst.operands _ (by simp))) h)

end Own

namespace Expr

variable {target : Target} {e : Expr} {args os : List Operand} {d d' : Draft} {o : Operand}

/-- The leaves of the tree that are given by a text stand at places of the sort. -/
structure LeavesIn (S : PlaceSort) (e : Expr) : Prop where
  field : ∀ f, .field f ∈ e.subterms → ∀ o, f.operand = .ok o → S.operand o.place
  external : ∀ t text, .external t text ∈ e.subterms → ∀ o, externalOperand .named t text = .ok o →
    S.operand o.place

theorem LeavesIn.child {x : Expr} (h : e.LeavesIn S) (hx : x ∈ e.children) : x.LeavesIn S :=
  ⟨fun f hf => h.field f (subterms_subset hx hf),
    fun t text ht => h.external t text (subterms_subset hx ht)⟩

/-- The node's own part, on operands of the sort. -/
theorem finish_stays (he : e.LeavesIn S) (hargs : ∀ a ∈ args, S.operand a.place)
    (h : e.finish target args d = .ok (o, d')) : Stays S d [o] d' := by
  cases e with
  | absent => exact absurd h Emit.throw_ne_ok
  | unary | convert | binary | ternary => exact Overload.emitFresh_stays hargs h
  | unselected x cause => exact Overload.emitFresh_stays (f := (unselected x cause).overload?) hargs h
  | select x p =>
    rcases args with _ | ⟨a, _ | ⟨b, rest⟩⟩
    · exact absurd h Emit.throw_ne_ok
    · obtain ⟨ho, hd⟩ : a.select p = .ok o ∧ d' = d := Emit.lift_ok_iff.mp h
      subst hd
      exact .of_code_eq rfl (by simpa [Operand.select_place ho] using hargs)
    · exact absurd h Emit.throw_ne_ok
  | literal l =>
    cases h
    exact .of_code_eq rfl (by simpa [Operand.ofType] using S.literal _)
  | external t text =>
    obtain ⟨ho, rfl⟩ := orFault_ok_iff.mp h
    exact .of_code_eq rfl (by simpa using he.external t text (mem_subterms_self _) o ho)
  | field f =>
    simp only [finish, Emit.bind_of_ok (Draft.useBuffer_eq f.slot f.size d)] at h
    obtain ⟨ho, rfl⟩ := orFault_ok_iff.mp h
    exact .of_code_eq rfl (by simpa using he.field f (mem_subterms_self _) o ho)
  | var v =>
    obtain ⟨⟨r, hplace⟩, rfl⟩ := Variable.operand_place h
    exact .of_code_eq rfl (by simpa [hplace] using S.temp r)
  | view v mask =>
    obtain ⟨⟨r, hplace⟩, rfl⟩ := Variable.viewOperand_place h
    exact .of_code_eq rfl (by simpa [hplace] using S.temp r)
  | sample i c =>
    rcases args with _ | ⟨a, _ | ⟨b, rest⟩⟩
    · exact absurd h Emit.throw_ne_ok
    · simp only [finish, Emit.bind_of_ok (Draft.useInput_eq i.slot i.type d)] at h
      have ha : S.code a.place := S.code_of_operand _ (hargs a (by simp))
      exact (Stays.note S d (.input i.slot i.type)).trans (emitFresh_stays ha h)
    · exact absurd h Emit.throw_ne_ok
  | element t b offset =>
    rcases args with _ | ⟨a, _ | ⟨b, rest⟩⟩
    · exact absurd h Emit.throw_ne_ok
    · exact emitFresh_stays (m := .mov) (S.globalFrom a.place a.lanes offset (hargs a (by simp))) h
    · exact absurd h Emit.throw_ne_ok
  | elementAt t offset =>
    simp only [finish, Emit.bind_of_ok (Draft.useGlobal_eq d)] at h
    have hread : S.code (elementAtOperand t offset).place := S.globalAt offset
    exact (Stays.note S d .global).trans (emitFresh_stays hread h)
  | position t => exact emitPosition_stays h

/-! ### Trees and assignments -/

theorem emitAll_stays_of {es : List Expr} (hes : ∀ e ∈ es, ∀ {d d' : Draft} {o : Operand},
      e.emit target d = .ok (o, d') → Stays S d [o] d')
    (h : emitAll target es d = .ok (os, d')) : Stays S d os d' := by
  induction es generalizing d os with
  | nil =>
    cases h
    exact .of_code_eq rfl (by simp)
  | cons e es ih =>
    obtain ⟨a, d₁, ha, h⟩ := Emit.bind_ok_iff.mp h
    obtain ⟨as, d₂, has, h⟩ := Emit.bind_ok_iff.mp h
    cases h
    exact (hes e List.mem_cons_self ha).append (ih (fun x hx => hes x (List.mem_cons_of_mem _ hx)) has)

/-- Whenever a tree is emitted whose leaves are of the sort, its code and its operand are of it. -/
theorem emit_stays (he : e.LeavesIn S) (h : e.emit target d = .ok (o, d')) : Stays S d [o] d' := by
  induction e using induction_children generalizing d o d' with
  | h e ih =>
    obtain ⟨args, d₁, hargs, hfinish⟩ := finish_of_emit h
    have hchildren := emitAll_stays_of (fun x hx => ih x hx (he.child hx)) hargs
    have hopened : Stays S d [] (e.opened d) := .of_code_eq (by simp) (by simp)
    exact (hopened.trans hchildren).trans (finish_stays he hchildren.operands hfinish)

theorem emitAll_stays {es : List Expr} (hes : ∀ e ∈ es, e.LeavesIn S)
    (h : emitAll target es d = .ok (os, d')) : Stays S d os d' :=
  emitAll_stays_of (fun e he => emit_stays (hes e he)) h

theorem LeavesIn.operand {x : Expr} (h : e.LeavesIn S) (hx : x ∈ e.operands) : x.LeavesIn S := by
  cases e with
  | unary | convert | binary | ternary => exact h.child hx
  | _ => cases hx

end Expr

variable {target : Target} {e : Expr} {d d' : Draft} {u : Unit}

theorem emitMove_stays {dst value : Operand} (hdst : S.code dst.place) (hvalue : S.operand value.place)
    (h : emitMove dst value d = .ok (u, d')) : Stays S d [] d' := by
  obtain ⟨x, hplace, hx⟩ : ∃ x : Operand, x.place = value.place ∧
      Draft.writeAll [⟨.mov, dst.destination, [x.alignedTo dst]⟩] d = .ok (u, d') := by
    unfold emitMove at h
    split_ifs at h
    · obtain ⟨x, hx, h⟩ := Emit.bind_lift_ok_iff.mp h
      exact ⟨x, Operand.splat_place hx, h⟩
    · exact ⟨value, rfl, h⟩
  cases hx
  have hon : (⟨.mov, dst.destination, [x.alignedTo dst]⟩ : Instruction).On [dst, value] :=
    ⟨⟨dst, rfl, dst, by simp, rfl⟩, fun s hs => ⟨value, by simp, by
      rw [List.mem_singleton.mp hs]
      exact hplace⟩⟩
  refine ⟨[_], Draft.written_code_toList _ _, ?_, by simp⟩
  rw [List.forall_mem_singleton]
  exact hon.inSort (by simpa using ⟨hdst, S.code_of_operand _ hvalue⟩)

theorem emitTo_stays (he : e.LeavesIn S) {dst : Operand} (hdst : S.code dst.place)
    {direct : Option Overload} (h : emitTo target dst direct e d = .ok (u, d')) : Stays S d [] d' := by
  cases direct with
  | some f =>
    obtain ⟨args, d₁, hargs, h⟩ := Emit.bind_ok_iff.mp h
    have hstays := Expr.emitAll_stays (fun x hx => he.operand hx) hargs
    exact hstays.trans (Overload.emitInto_stays hdst hstays.operands h)
  | none =>
    obtain ⟨value, d₁, hvalue, h⟩ := Emit.bind_ok_iff.mp h
    have hstays := Expr.emit_stays he hvalue
    exact hstays.trans (emitMove_stays hdst (hstays.operands _ (by simp)) h)

namespace LValue

/-- Whenever an assignment is emitted, value and destination having leaves of the sort, its code is of
it. -/
theorem store_stays {dst : LValue} (he : e.LeavesIn S) (hdst : dst.toExpr.LeavesIn S)
    (h : dst.store target e d = .ok (u, d')) : Stays S d [] d' := by
  have htemp : ∀ r, S.code (.temp r) := fun r => S.code_of_operand _ (S.temp r)
  cases dst with
  | var v =>
    obtain ⟨dst, d₁, hoperand, h⟩ := Emit.bind_ok_iff.mp h
    obtain ⟨⟨r, hplace⟩, rfl⟩ := Variable.operand_place hoperand
    exact emitTo_stays he (by rw [hplace]; exact htemp r) h
  | view v mask =>
    obtain ⟨lanes, d₁, hlanes, h⟩ := Emit.bind_ok_iff.mp h
    obtain ⟨-, rfl⟩ := orFault_ok_iff.mp hlanes
    obtain ⟨dst, d₂, hoperand, h⟩ := Emit.bind_ok_iff.mp h
    obtain ⟨⟨r, hplace⟩, rfl⟩ := Variable.viewOperand_place hoperand
    exact emitTo_stays he (by rw [hplace]; exact htemp r) h
  | element t a =>
    obtain ⟨value, d₁, hvalue, h⟩ := Emit.bind_ok_iff.mp h
    rw [Emit.bind_of_ok (Draft.useGlobal_eq d₁)] at h
    have hstays := Expr.emit_stays he hvalue
    have hnoted := hstays.append (Stays.note S d₁ .global)
    obtain ⟨base, offset⟩ := a
    cases base with
    | none =>
      have hmove : emitMove (elementAtOperand t offset) value (d₁.note .global) = .ok (u, d') := h
      exact hnoted.trans (emitMove_stays (S.globalAt offset) (hstays.operands _ (by simp)) hmove)
    | some b =>
      obtain ⟨base, d₂, hbase, hmove⟩ := Emit.bind_ok_iff.mp h
      have hb : b.LeavesIn S := hdst.child (by exact List.mem_singleton_self b)
      have hbstays := Expr.emit_stays hb hbase
      refine hnoted.trans (hbstays.trans (emitMove_stays ?_ (hstays.operands _ (by simp)) hmove))
      exact S.globalFrom base.place base.lanes offset (hbstays.operands _ (by simp))

end LValue

end ShaderIL
