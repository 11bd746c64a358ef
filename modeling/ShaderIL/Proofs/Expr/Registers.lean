import ShaderIL.Proofs.Expr.Assignment

/-!
# Registers in the code of a tree

`Place.Mentions` says that a temporary stands in a place, as itself or as the base of an address. The
code of a tree, and of an assignment, mentions the registers of its variables and registers that it
took itself (`Accepted.emit_bounded`, `LValue.Stores.bounded`), so nothing in it lies beyond the
counter.
-/

namespace ShaderIL

/-- The temporary stands in the place. -/
def Place.Mentions : Place → Nat → Prop
  | .temp r, n => r = n
  | .globalFrom base _ _, n => base.Mentions n
  | _, _ => False

/-- The temporary stands in the instruction. -/
def Instruction.Mentions (i : Instruction) (n : Nat) : Prop :=
  i.dst.place.Mentions n ∨ ∃ s ∈ i.srcs, s.place.Mentions n

/-- The temporary stands in the line. -/
def Line.Mentions : Line → Nat → Prop
  | .instruction i, n => i.Mentions n
  | .test _ c, n => c.place.Mentions n
  | .word _, _ | .comment _, _ => False

/-- The code mentions registers below `n` only. -/
def MentionsBelow (n : Nat) (is : List Instruction) : Prop := ∀ i ∈ is, ∀ r, i.Mentions r → r < n

/-- The place is below `n`, as far as it has a register. -/
def Place.Below (n : Nat) (p : Place) : Prop := ∀ r, p.Mentions r → r < n

theorem Place.Below.mono {p : Place} {n k : Nat} (h : p.Below n) (hk : n ≤ k) : p.Below k :=
  fun r hr => Nat.lt_of_lt_of_le (h r hr) hk

theorem Place.below_temp {r n : Nat} (h : r < n) : (Place.temp r).Below n := by
  rintro _ rfl
  exact h

theorem MentionsBelow.mono {is : List Instruction} {n k : Nat} (h : MentionsBelow n is)
    (hk : n ≤ k) : MentionsBelow k is :=
  fun i hi r hr => Nat.lt_of_lt_of_le (h i hi r hr) hk

theorem MentionsBelow.append {is js : List Instruction} {n : Nat} (h : MentionsBelow n is)
    (h' : MentionsBelow n js) : MentionsBelow n (is ++ js) := by
  intro i hi
  rcases List.mem_append.mp hi with hi | hi
  · exact h i hi
  · exact h' i hi

theorem MentionsBelow.singleton {i : Instruction} {n : Nat} (hdst : i.dst.place.Below n)
    (hsrcs : ∀ s ∈ i.srcs, s.place.Below n) : MentionsBelow n [i] := by
  intro j hj r hr
  rw [List.mem_singleton.mp hj] at hr
  rcases hr with hr | ⟨s, hs, hr⟩
  · exact hdst r hr
  · exact hsrcs s hs r hr

variable {target : Target} {unit : UnitId} {e : Expr} {n : Nat}

/-! ### Nodes -/

namespace Overload

variable {f : Overload} {args : List Operand} {dst : Operand} {start : Nat}

/-- The lines of an overload read its operands and its scratch registers. -/
theorem lines_srcs (hf : f.Sound) (hargs : List.Forall₂ Operand.Fits args f.args) {i : Instruction}
    (hi : i ∈ f.lines dst args start) {s : SourceOperand} (hs : s ∈ i.srcs) :
    (∃ a ∈ args, s.place = a.place) ∨ ∃ q < f.scratch, s.place = .temp (start + q) := by
  obtain ⟨p, hp, rfl⟩ := List.mem_map.mp hi
  obtain ⟨src, hsrc, rfl⟩ := List.mem_map.mp hs
  have hplace : ∀ (o : Operands) (dst : Operand),
      (o.sourceOperand dst src).place = (o.slot src.slot).place := by
    intro o dst
    cases src <;> rfl
  rw [hplace]
  have hslots := hf.slot_cases
    (o := ⟨dst, f.widened args, Draft.registersFrom f.result start f.scratch⟩) hargs rfl
    (hf.source_legal p hp src hsrc)
  rcases hslots with ⟨a, ha, hholds⟩ | ⟨q, hq, hslot⟩
  · exact .inl ⟨a, ha, hholds.1⟩
  · refine .inr ⟨q, hq, ?_⟩
    simp only [hslot, Operands.slot, List.getD_eq_getElem?_getD,
      Draft.getElem?_registersFrom _ _ hq, Option.getD_some]
    rfl

theorem lines_below (hf : f.Sound) (hargs : List.Forall₂ Operand.Fits args f.args)
    (hdst : dst.Fits f.result) (hplace : dst.place.Below n) (hstart : start + f.scratch ≤ n)
    (hbelow : ∀ a ∈ args, a.place.Below n) : MentionsBelow n (f.lines dst args start) := by
  intro i hi r hr
  rcases hr with hr | ⟨s, hs, hr⟩
  · rcases lines_dst hf hdst hi with ⟨hsame, -⟩ | ⟨q, hq, hscratch⟩
    · rw [hsame] at hr
      exact hplace r hr
    · rw [hscratch] at hr
      exact Place.below_temp (by omega) r hr
  · rcases lines_srcs hf hargs hi hs with ⟨a, ha, hsame⟩ | ⟨q, hq, hscratch⟩
    · rw [hsame] at hr
      exact hbelow a ha r hr
    · rw [hscratch] at hr
      exact Place.below_temp (by omega) r hr

end Overload

theorem freshLine_below (m : Mnemonic) (t : ValueType) {o : Operand} {r : Nat}
    (hs : o.place.Below n) (hr : r < n) : MentionsBelow n [freshLine m t o r] := by
  refine .singleton (Place.below_temp hr) fun s hs' => ?_
  rw [freshLine, List.mem_singleton] at hs'
  rw [hs']
  exact hs

theorem Loads.source_below {args : List Operand} {m : Mnemonic} {t : ValueType} {source : Operand}
    (h : Loads target args e m t source) (hargs : ∀ a ∈ args, a.place.Below n) :
    source.place.Below n := by
  cases h with
  | sample ha => exact hargs _ (by simp [ha])
  | @element _ _ _ a ha => exact fun r hr => hargs a (by simp [ha]) r hr
  | elementAt | threadId | window => exact fun _ => False.elim

theorem Finish.below {args : List Operand} {d : Draft} {o : Operand} {k : Nat}
    {is : List Instruction} (h : Finish target args d e o k is) (hext : e.ExternalFree)
    (hvars : e.VarsBelow d.next) (hfit : Expr.Fitting args e.children)
    (hargs : ∀ a ∈ args, a.place.Below d.next) :
    MentionsBelow (d.next + k) is ∧ o.place.Below (d.next + k) := by
  have hnil : ∀ n, MentionsBelow n [] := by simp [MentionsBelow]
  cases h with
  | @var v home hd hh =>
    have hlt := hvars v (by simp [Expr.vars, Expr.subterms]) home hh
    exact ⟨hnil _, Place.below_temp hlt⟩
  | @view v home mask s hd hh hs =>
    have hlt := hvars v (by simp [Expr.vars, Expr.subterms]) home hh
    exact ⟨hnil _, Place.below_temp hlt⟩
  | literal | threadId => exact ⟨hnil _, fun _ => False.elim⟩
  | @field f _ ho =>
    obtain ⟨name, hplace⟩ := externalOperand_place (BufferField.operand_eq ho)
    refine ⟨hnil _, fun r hr => ?_⟩
    rw [hplace, BufferField.placeOf] at hr
    split_ifs at hr
    · exact hr.elim
    · exact hr.elim
  | @external t text _ ho => exact absurd (Expr.mem_subterms_self _) (hext t text)
  | @select x p a ha => exact ⟨hnil _, hargs a (by simp [ha])⟩
  | load hl =>
    have hsource := (hl.source_below hargs).mono (Nat.le_succ _)
    exact ⟨freshLine_below _ _ hsource (Nat.lt_succ_self _), Place.below_temp (Nat.lt_succ_self _)⟩
  | @window t ht hk =>
    have hfloor := freshLine_below (n := d.next + 2) (r := d.next) .floor ⟨.float, t.components⟩
      (o := leading .windowPosition .float4 t.components) (fun _ => False.elim) (by omega)
    have hconvert := freshLine_below (n := d.next + 2) (r := d.next + 1) t.kind.fromFloat t
      (o := .ofType (.temp d.next) ⟨.float, t.components⟩) (Place.below_temp (by omega))
      (by omega)
    exact ⟨hfloor.append hconvert, Place.below_temp (by omega)⟩
  | @operation _ f hf =>
    obtain ⟨hs, ha, -⟩ := Expr.overload?_spec hf
    have hresult : (Place.temp d.next).Below (d.next + (1 + f.scratch)) :=
      Place.below_temp (by omega)
    refine ⟨?_, hresult⟩
    exact Overload.lines_below hs (Expr.Fitting.fits_args ha hfit)
      (Operand.ofType_fits _ hs.result_valid) hresult (by omega)
      fun a ha => (hargs a ha).mono (Nat.le_add_right _ _)

/-! ### Trees -/

namespace Expr

/-- The code of a tree mentions registers below the counter, and so does its operand. -/
def Bounded (d : Draft) (e : Expr) (o : Operand) (d' : Draft) (is : List Instruction) : Prop :=
  e.ExternalFree → e.VarsBelow d.next → MentionsBelow d'.next is ∧ o.place.Below d'.next

/-- The code of several trees mentions registers below the counter, and so do their operands. -/
def BoundedAll (d : Draft) (xs : List Expr) (os : List Operand) (d' : Draft)
    (is : List Instruction) : Prop :=
  (∀ x ∈ xs, ExternalFree x) → (∀ x ∈ xs, VarsBelow d.next x) →
    MentionsBelow d'.next is ∧ ∀ o ∈ os, o.place.Below d'.next

theorem BoundedAll.nil (d : Draft) : BoundedAll d [] [] d [] :=
  fun _ _ => ⟨by simp [MentionsBelow], by simp⟩

theorem BoundedAll.cons {d d1 d2 : Draft} {x : Expr} {xs : List Expr} {o : Operand}
    {os : List Operand} {is js : List Instruction} (his : d.Extends d1 is)
    (hjs : d1.Extends d2 js) (hx : Bounded d x o d1 is) (hxs : BoundedAll d1 xs os d2 js) :
    BoundedAll d (x :: xs) (o :: os) d2 (is ++ js) := by
  intro hext hvars
  obtain ⟨hi, ho⟩ := hx (hext x (by simp)) (hvars x (by simp))
  obtain ⟨hj, hos⟩ := hxs (fun y hy => hext y (by simp [hy]))
    fun y hy => (hvars y (by simp [hy])).mono his.next
  refine ⟨(hi.mono hjs.next).append hj, fun a ha => ?_⟩
  rcases List.mem_cons.mp ha with rfl | ha
  · exact ho.mono hjs.next
  · exact hos a ha

theorem Bounded.node {d d1 d' : Draft} {o : Operand} {args : List Operand} {k : Nat}
    {is js : List Instruction} (hdone : Emitted target d e o d' args d1 k is)
    (hjs : (e.opened d).Extends d1 js) (hargs : BoundedAll (e.opened d) e.children args d1 js) :
    Bounded d e o d' (js ++ is) := by
  intro hext hvars
  have hnext : d.next ≤ d1.next := by simpa using hjs.next
  obtain ⟨hj, hready⟩ := hargs (fun x hx => hext.child hx) fun x hx => by
    simpa using hvars.child hx
  obtain ⟨hi, ho⟩ := hdone.finished.form.below hext (hvars.mono hnext) hdone.fitting hready
  rw [← hdone.finished.next] at hi ho
  exact ⟨(hj.mono hdone.finished.extends.next).append hi, ho⟩

theorem Accepted.emit_bounded {d d' : Draft} {o : Operand} (he : e.Accepted unit)
    (hemit : e.emit target d = .ok (o, d')) : ∃ is, d.Extends d' is ∧ Bounded d e o d' is :=
  he.emit_induction BoundedAll.nil BoundedAll.cons (fun _ => Bounded.node) hemit

theorem emitAll_bounded {xs : List Expr} {d d' : Draft} {os : List Operand}
    (hxs : ∀ x ∈ xs, Accepted unit x) (hemit : emitAll target xs d = .ok (os, d')) :
    ∃ is, d.Extends d' is ∧ BoundedAll d xs os d' is :=
  emitAll_induction BoundedAll.nil BoundedAll.cons (fun _ => Bounded.node) hxs hemit

end Expr

/-! ### Assignments -/

theorem moveLine_below {D o : Operand} (hD : D.place.Below n) (ho : o.place.Below n) :
    MentionsBelow n [moveLine D o] := by
  refine .singleton hD fun s hs => ?_
  rw [moveLine, List.mem_singleton] at hs
  have hplace : s.place = o.place := by
    rw [hs, Operand.widenedTo]
    split_ifs
    · rfl
    · rfl
  rw [hplace]
  exact ho

namespace LValue

variable {dst : LValue} {d d' : Draft}

theorem operand?_below {D : Operand} (hD : dst.operand? = some D)
    (hvars : dst.toExpr.VarsBelow n) : D.place.Below n := by
  cases dst with
  | var v =>
    obtain ⟨h, hh, rfl⟩ := Option.map_eq_some_iff.mp hD
    exact Place.below_temp (hvars v (by simp [toExpr, Expr.vars, Expr.subterms]) h hh)
  | view v mask =>
    simp only [operand?] at hD
    split at hD
    · rename_i h s hh hs
      cases hD
      exact Place.below_temp (hvars v (by simp [toExpr, Expr.vars, Expr.subterms]) h hh)
    · cases hD
  | element t a => cases hD

/-- The code of an assignment mentions registers below the counter. -/
theorem Stores.bounded (h : Stores target e d dst d') (he : e.Accepted unit)
    (hdst : dst.toExpr.Accepted unit) (hext : e.ExternalFree) (hdext : dst.toExpr.ExternalFree)
    (hvars : e.VarsBelow d.next) (hdvars : dst.toExpr.VarsBelow d.next) :
    ∃ is, d.Grows d' is ∧ MentionsBelow d'.next is := by
  cases h with
  | @moved _ D o d1 hD hemit =>
    obtain ⟨is, his, hbound⟩ := he.emit_bounded hemit
    obtain ⟨hi, ho⟩ := hbound hext hvars
    refine ⟨is ++ [moveLine D o], his.toGrows.trans (.appended _ _), hi.append ?_⟩
    exact moveLine_below ((operand?_below hD hdvars).mono his.next) ho
  | @direct _ r f args d1 hf hsingle hD htype hemit =>
    obtain ⟨is, his, hbound⟩ := Expr.emitAll_bounded (fun x hx => he.child hx) hemit
    obtain ⟨hi, hargs⟩ := hbound (fun x hx => hext.child hx) fun x hx => hvars.child hx
    obtain ⟨hs, ha, -⟩ := Expr.overload?_spec hf
    have hfit := Expr.emitAll_fitting (fun x hx => he.child hx) hemit
    refine ⟨is ++ f.lines (.ofType (.temp r) f.result) args d1.next,
      his.toGrows.trans (.appended _ _), hi.append ?_⟩
    refine Overload.lines_below hs (Expr.Fitting.fits_args ha hfit)
      (Operand.ofType_fits _ hs.result_valid) ((operand?_below hD hdvars).mono his.next) ?_ hargs
    rw [hs.scratch_of_single hsingle]
    exact Nat.le_refl _
  | @elementAt t offset o d1 hemit =>
    obtain ⟨is, his, hbound⟩ := he.emit_bounded hemit
    obtain ⟨hi, ho⟩ := hbound hext hvars
    have hgrows := his.toGrows.usingGlobal
    refine ⟨is ++ [moveLine (elementAtOperand t offset) o], hgrows.trans (.appended _ _),
      hi.append ?_⟩
    exact moveLine_below (fun _ => False.elim) ho
  | @element t b offset o d1 base d2 hemit hbase =>
    have hchild : b ∈ (LValue.element t ⟨some b, offset⟩).toExpr.children := by
      simp [toExpr, Address.element, Expr.children]
    obtain ⟨is, his, hbound⟩ := he.emit_bounded hemit
    obtain ⟨hi, ho⟩ := hbound hext hvars
    obtain ⟨js, hjs, hbbound⟩ := (hdst.child hchild).emit_bounded hbase
    obtain ⟨hj, hb⟩ := hbbound (hdext.child hchild) ((hdvars.child hchild).mono his.next)
    have hgrows := his.toGrows.usingGlobal
    refine ⟨is ++ js ++ [moveLine (elementOperand t base offset) o],
      (hgrows.trans hjs.toGrows).trans (.appended _ _), ?_⟩
    have hle : d1.next ≤ d2.next := hjs.next
    exact ((hi.mono hle).append hj).append (moveLine_below (fun r hr => hb r hr) (ho.mono hle))

end LValue

end ShaderIL
