import ShaderIL.Proofs.Expr.Assignment

/-!
# Lanes are written before they are read

`Definite K is` says that every lane of a temporary that an instruction of `is` reads is in `K` or was
written by an earlier one. Reading includes the base of an address, in a source or in a destination.
The code of a tree is definite once the lanes of its variables are known, and the lanes of the operand
it leaves are known or written (`Accepted.emit_definite`); the same holds for assignments
(`LValue.Stores.definite`).
-/

namespace ShaderIL

/-! ### Reading and writing -/

/-- A set of lanes of temporaries. -/
abbrev LaneSet := Nat → Lane → Prop

/-- The lanes of temporaries that are read with lanes of a place: these lanes themselves, or those of
the base of its address. -/
def Place.readSet : Place → Swizzle → LaneSet
  | .temp r, s => fun n l => r = n ∧ l ∈ s.lanes
  | .globalFrom base lanes _, _ => base.readSet lanes
  | _, _ => fun _ _ => False

/-- The lanes of temporaries that are read to write a place. -/
def Place.addressSet : Place → LaneSet
  | .globalFrom base lanes _ => base.readSet lanes
  | _ => fun _ _ => False

/-- The instruction reads a lane of a temporary. -/
def Instruction.Reads (i : Instruction) : LaneSet := fun n l =>
  i.dst.place.addressSet n l ∨ ∃ s ∈ i.srcs, s.place.readSet s.lanes n l

/-- The instruction writes a lane of a temporary. -/
def Instruction.Writes (i : Instruction) : LaneSet := fun n l =>
  i.dst.place = .temp n ∧ i.dst.mask.has l = true

/-- The lanes that are known after instructions. -/
def LaneSet.after (K : LaneSet) (is : List Instruction) : LaneSet := fun n l =>
  K n l ∨ ∃ i ∈ is, i.Writes n l

/-- Every lane that is read is known or was written by an earlier instruction. -/
def Definite : LaneSet → List Instruction → Prop
  | _, [] => True
  | K, i :: is => (∀ n l, i.Reads n l → K n l) ∧ Definite (K.after [i]) is

/-- The lanes that are read with the operand are known. -/
def Operand.Ready (K : LaneSet) (o : Operand) : Prop := ∀ n l, o.place.readSet o.lanes n l → K n l

/-- The lane is one of the variable's. -/
def Variable.Owns (v : Variable) : LaneSet := fun n l =>
  ∃ h, v.home = some h ∧ h.register = n ∧ l.val < v.declared.lanes

namespace LaneSet

variable {K : LaneSet}

@[simp] theorem after_nil (K : LaneSet) : K.after [] = K := by
  funext n l
  simp [after]

theorem after_append (K : LaneSet) (is js : List Instruction) :
    (K.after is).after js = K.after (is ++ js) := by
  funext n l
  simp only [after, List.mem_append, or_and_right, exists_or, or_assoc]

theorem subset_after (is : List Instruction) {n : Nat} {l : Lane} (h : K n l) : K.after is n l :=
  .inl h

end LaneSet

theorem definite_append {K : LaneSet} {is js : List Instruction} :
    Definite K (is ++ js) ↔ Definite K is ∧ Definite (K.after is) js := by
  induction is generalizing K with
  | nil => simp [Definite]
  | cons i is ih =>
    simp only [List.cons_append, Definite, ih, LaneSet.after_append, List.nil_append, and_assoc]

theorem Place.readSet_subset {p : Place} {s s' : Swizzle} (h : ∀ l ∈ s'.lanes, l ∈ s.lanes) {n : Nat}
    {l : Lane} (hr : p.readSet s' n l) : p.readSet s n l := by
  cases p with
  | temp r => exact ⟨hr.1, h l hr.2⟩
  | _ => exact hr

namespace Operand.Ready

variable {K K' : LaneSet} {o : Operand}

theorem mono (h : o.Ready K) (hK : ∀ n l, K n l → K' n l) : o.Ready K' :=
  fun n l hr => hK n l (h n l hr)

theorem after (h : o.Ready K) (is : List Instruction) : o.Ready (K.after is) :=
  h.mono fun _ _ => LaneSet.subset_after is

theorem of_lanes {o' : Operand} (h : o.Ready K) (hplace : o'.place = o.place)
    (hlanes : ∀ l ∈ o'.lanes.lanes, l ∈ o.lanes.lanes) : o'.Ready K := by
  intro n l hr
  rw [hplace] at hr
  exact h n l (Place.readSet_subset hlanes hr)

theorem picked {t : ValueType} {p : Swizzle} (h : o.Ready K) (ho : o.Fits t)
    (hp : p.maxLane < t.components) : (o.picked p).Ready K :=
  h.of_lanes rfl fun _ => Operand.mem_picked_lanes ho hp

theorem of_written {is : List Instruction} {r : Nat} (hplace : o.place = .temp r)
    (h : ∀ l ∈ o.lanes.lanes, ∃ i ∈ is, i.Writes r l) : o.Ready (K.after is) := by
  intro n l hr
  rw [hplace] at hr
  obtain ⟨rfl, hl⟩ := hr
  exact .inr (h l hl)

theorem of_destination {i : Instruction} {r : Nat} (hplace : o.place = .temp r)
    (hi : i.dst = o.destination) : o.Ready (K.after [i]) := by
  refine of_written hplace fun l hl => ⟨i, by simp, ?_⟩
  rw [Instruction.Writes, hi]
  exact ⟨hplace, (Operand.has_mask o l).mpr hl⟩

end Operand.Ready

/-! ### The lines of an overload -/

namespace Overload

variable {K : LaneSet} {f : Overload} {o : Operands} {dst : Operand} {args : List Operand}
  {r start : Nat}

theorem Supplied.source_ready (h : f.Supplied o) (hf : f.Sound) {s : PatternSource} (hs : s.Legal f)
    (dst : Operand) (hready : (o.slot s.slot).Ready K) :
    ∀ n l, (o.sourceOperand dst s).place.readSet (o.sourceOperand dst s).lanes n l → K n l := by
  obtain ⟨hplace, hlanes⟩ := h.holds_source hf hs dst
  intro n l hr
  rw [hplace] at hr
  exact hready n l (Place.readSet_subset hlanes hr)

theorem filled_definite (hsup : f.Supplied o) (hf : f.Sound) (hdst : o.result.place = .temp r)
    (hscratch : ∀ q < f.scratch, ∃ r, (o.slot (.scratch q)).place = .temp r) :
    ∀ {ps : List Pattern} {done : List Nat} {K : LaneSet}, (∀ p ∈ ps, p ∈ f.body) →
      ScratchReady done ps →
      (∀ i t, f.slotType (.source i) = some t → (o.slot (.source i)).Ready K) →
      (∀ q ∈ done, (o.slot (.scratch q)).Ready K) → Definite K (ps.map fun p => p.filled o)
  | [], _, _, _, _, _, _ => trivial
  | p :: ps, done, K, hps, hready, hsources, hdone => by
    have hp := hps p (by simp)
    have hlegal := hf.target_legal p hp
    refine ⟨fun n l hr => ?_, ?_⟩
    · rcases hr with hr | ⟨s, hs, hr⟩
      · -- temporaries have no address
        have hplace : ∃ r, (o.targetOperand p.target).place = .temp r := by
          cases ht : p.target with
          | result | resultComponent | resultSpan => exact ⟨r, hdst⟩
          | scratch q =>
            rw [ht] at hlegal
            exact hscratch q hlegal
        obtain ⟨r', hr'⟩ := hplace
        simp only [Pattern.filled, Operand.destination, hr', Place.addressSet] at hr
      · obtain ⟨s', hs', rfl⟩ := List.mem_map.mp hs
        have hs'' := hf.source_legal p hp s' hs'
        refine hsup.source_ready hf hs'' _ ?_ n l hr
        cases hslot : s'.slot with
        | source i =>
          obtain ⟨t, ht, -⟩ := hs''
          rw [hslot] at ht
          exact hsources i t ht
        | scratch q => exact hdone q (hready.1 s' hs' q hslot)
    · refine filled_definite hsup hf hdst hscratch (fun q hq => hps q (by simp [hq])) hready.2
        (fun i t ht => (hsources i t ht).after _) fun q hq => ?_
      rcases List.mem_append.mp hq with hq | hq
      · cases ht : p.target with
        | result | resultComponent | resultSpan => simp [ht, PatternTarget.scratch?] at hq
        | scratch q' =>
          rw [ht] at hlegal
          simp only [ht, PatternTarget.scratch?, Option.toList_some, List.mem_singleton] at hq
          subst hq
          obtain ⟨r', hr'⟩ := hscratch q hlegal
          refine .of_destination hr' ?_
          simp only [Pattern.filled, ht, Operands.targetOperand]
      · exact (hdone q hq).after _

/-- The lines of an overload on operands that are ready. -/
theorem lines_definite (hf : f.Sound) (hargs : List.Forall₂ Operand.Fits args f.args)
    (hready : ∀ a ∈ args, a.Ready K) :
    Definite K (f.lines (.ofType (.temp r) f.result) args start) := by
  have hscratch : ∀ x ∈ Draft.registersFrom f.result start f.scratch, x.Fits f.result := by
    intro x hx
    obtain ⟨i, -, rfl⟩ := List.mem_map.mp hx
    exact Operand.ofType_fits _ hf.result_valid
  have hsup := f.supplied_widened (Operand.ofType_fits (.temp r) hf.result_valid) hargs
    (Draft.length_registersFrom _ _ _) hscratch
  refine filled_definite hsup hf rfl (fun q hq => ⟨start + q, ?_⟩) (fun p hp => hp) hf.ready
    (fun i t ht => ?_) (by simp)
  · simp only [Operands.slot, List.getD_eq_getElem?_getD, Draft.getElem?_registersFrom _ _ hq,
      Option.getD_some]
    rfl
  · -- a widened operand has lanes of the operand only
    simp only [slotType, Option.map_eq_some_iff] at ht
    obtain ⟨a, ha, -⟩ := ht
    obtain ⟨hi, -⟩ := List.getElem?_eq_some_iff.mp ha
    have hi' : i < args.length := by rw [hargs.length_eq]; exact hi
    have hfits := hargs.get hi' hi
    have ha' : f.args[i] = a := (List.getElem?_eq_some_iff.mp ha).2
    have harg := hready args[i] (List.getElem_mem hi')
    simp only [List.get_eq_getElem, ha'] at hfits
    rw [slot_widened ha (List.getElem?_eq_getElem hi')]
    unfold widenedOperand
    split_ifs
    · have hv := (hf.args_valid a (List.mem_of_getElem? ha)).1
      exact harg.picked hfits (Swizzle.maxLane_broadcast (ValueType.components_pos hv))
    · exact harg

theorem result_ready (hf : f.Sound) :
    (Operand.ofType (.temp r) f.result).Ready
      (K.after (f.lines (.ofType (.temp r) f.result) args start)) := by
  refine .of_written rfl fun l hl => ?_
  have hlt := (Operand.mem_ofType _ _).mp hl
  obtain ⟨p, hp, hcovers⟩ := hf.covers _ (ValueType.component_lt hlt)
  have hs : p.target.scratch? = none := by
    cases ht : p.target with
    | result | resultComponent | resultSpan => rfl
    | scratch q => simp [ht, PatternTarget.Covers] at hcovers
  refine ⟨_, List.mem_map_of_mem hp, ?_, ?_⟩
  · exact Operands.targetOperand_place hs
  · exact (has_targetOperand hf rfl (hf.target_legal p hp) hs hlt).mpr hcovers

end Overload

/-! ### Nodes and trees -/

variable {target : Target} {unit : UnitId} {K : LaneSet} {e : Expr}

/-- The lanes of the variables of the tree are known. -/
def Expr.VarsIn (K : LaneSet) (e : Expr) : Prop := ∀ v ∈ e.vars, ∀ n l, v.Owns n l → K n l

theorem freshLine_definite (m : Mnemonic) (t : ValueType) {source : Operand} (hs : source.Ready K)
    (r : Nat) : Definite K [freshLine m t source r] ∧
      (Operand.ofType (.temp r) t).Ready (K.after [freshLine m t source r]) := by
  refine ⟨⟨fun n l hr => ?_, trivial⟩, .of_destination rfl rfl⟩
  rcases hr with hr | ⟨s, hs', hr⟩
  · exact hr.elim
  · rw [freshLine, List.mem_singleton] at hs'
    subst hs'
    exact hs n l hr

theorem Operand.ready_leading {p : Place} (h : ∀ s n l, ¬ p.readSet s n l) (t : ValueType)
    (c : Nat) : (leading p t c).Ready K := fun n l hr => absurd hr (h _ n l)

theorem Loads.source_ready {args : List Operand} {m : Mnemonic} {t : ValueType} {source : Operand}
    (h : Loads target args e m t source) (hargs : ∀ a ∈ args, a.Ready K) : source.Ready K := by
  cases h with
  | sample ha => exact hargs _ (by simp [ha])
  | @element _ _ _ a ha => exact fun n l hr => hargs a (by simp [ha]) n l hr
  | elementAt => exact fun n l hr => hr.elim
  | threadId => exact Operand.ready_leading (fun _ _ _ => id) _ _
  | window => exact Operand.ready_leading (fun _ _ _ => id) _ _

theorem Finish.definite {args : List Operand} {d : Draft} {o : Operand} {k : Nat}
    {is : List Instruction} (h : Finish target args d e o k is) (he : e.Accepted unit)
    (hext : e.ExternalFree) (hvars : e.VarsIn K) (hfit : Expr.Fitting args e.children)
    (hargs : ∀ a ∈ args, a.Ready K) : Definite K is ∧ o.Ready (K.after is) := by
  cases h with
  | @var v home hd hh =>
    rw [LaneSet.after_nil]
    refine ⟨trivial, ?_⟩
    rintro n l ⟨rfl, hl⟩
    refine hvars v (by simp [Expr.vars, Expr.subterms]) _ l ⟨home, hh, rfl, ?_⟩
    exact (Operand.mem_ofType _ _).mp hl
  | @view v home mask s hd hh hs =>
    rw [LaneSet.after_nil]
    refine ⟨trivial, ?_⟩
    rintro n l ⟨rfl, hl⟩
    obtain ⟨hmax, -⟩ := Variable.viewLanes_spec hd hs
    refine hvars v (by simp [Expr.vars, Expr.subterms]) _ l ⟨home, hh, rfl, ?_⟩
    exact (Operand.mem_ofType _ _).mp (Operand.mem_picked_lanes (Operand.ofType_fits _ hd) hmax hl)
  | literal => exact ⟨trivial, fun n l hr => hr.elim⟩
  | @field f _ ho =>
    obtain ⟨name, hplace⟩ := externalOperand_place (BufferField.operand_eq ho)
    refine ⟨trivial, fun n l hr => ?_⟩
    rw [hplace, BufferField.placeOf] at hr
    split_ifs at hr
    · exact hr.elim
    · exact hr.elim
  | @external t text _ ho => exact absurd (Expr.mem_subterms_self _) (hext t text)
  | @select x p a ha =>
    subst ha
    have hx := (he.typed.child (x := x) (by simp [Expr.children])).type_valid
    obtain ⟨hmax, -⟩ := Expr.type_select he.typed.type_valid hx
    obtain _ | ⟨hfits, -⟩ := hfit
    rw [LaneSet.after_nil]
    exact ⟨trivial, (hargs a (by simp)).picked hfits hmax⟩
  | threadId => exact ⟨trivial, Operand.ready_leading (fun _ _ _ => id) _ _⟩
  | load hl => exact freshLine_definite _ _ (hl.source_ready hargs) _
  | @window t ht hk =>
    obtain ⟨hfloor, hready⟩ := freshLine_definite (K := K) .floor ⟨.float, t.components⟩
      (Operand.ready_leading (p := .windowPosition) (fun _ _ _ => id) .float4 t.components)
      d.next
    obtain ⟨hconvert, hready'⟩ := freshLine_definite t.kind.fromFloat t hready (d.next + 1)
    rw [LaneSet.after_append] at hready'
    exact ⟨⟨hfloor.1, hconvert⟩, hready'⟩
  | operation hf =>
    obtain ⟨hs, ha, -⟩ := Expr.overload?_spec hf
    exact ⟨Overload.lines_definite hs (Expr.Fitting.fits_args ha hfit) hargs,
      Overload.result_ready hs⟩

namespace Expr

/-- The code of a tree reads known lanes only, and leaves an operand that is ready. -/
def Defines (e : Expr) (o : Operand) (is : List Instruction) : Prop :=
  e.ExternalFree → ∀ K : LaneSet, e.VarsIn K → Definite K is ∧ o.Ready (K.after is)

/-- The code of several trees reads known lanes only, and leaves operands that are ready. -/
def DefinesAll (xs : List Expr) (os : List Operand) (is : List Instruction) : Prop :=
  (∀ x ∈ xs, ExternalFree x) → ∀ K : LaneSet, (∀ x ∈ xs, VarsIn K x) →
    Definite K is ∧ ∀ o ∈ os, o.Ready (K.after is)

theorem VarsIn.child {x : Expr} (h : e.VarsIn K) (hx : x ∈ e.children) : x.VarsIn K :=
  fun v hv => h v (vars_subset hx hv)

theorem VarsIn.after (h : e.VarsIn K) (is : List Instruction) : e.VarsIn (K.after is) :=
  fun v hv n l ho => LaneSet.subset_after is (h v hv n l ho)

theorem DefinesAll.nil : DefinesAll [] [] [] := fun _ _ _ => ⟨trivial, by simp⟩

theorem DefinesAll.cons {x : Expr} {xs : List Expr} {o : Operand} {os : List Operand}
    {is js : List Instruction} (hx : Defines x o is) (hxs : DefinesAll xs os js) :
    DefinesAll (x :: xs) (o :: os) (is ++ js) := by
  intro hext K hvars
  obtain ⟨his, ho⟩ := hx (hext x (by simp)) K (hvars x (by simp))
  obtain ⟨hjs, hos⟩ := hxs (fun y hy => hext y (by simp [hy])) (K.after is)
    fun y hy => (hvars y (by simp [hy])).after is
  rw [LaneSet.after_append] at hos
  refine ⟨definite_append.mpr ⟨his, hjs⟩, fun a ha => ?_⟩
  rcases List.mem_cons.mp ha with rfl | ha
  · rw [← LaneSet.after_append]
    exact ho.after js
  · exact hos a ha

theorem Defines.node {d d1 d' : Draft} {o : Operand} {args : List Operand} {k : Nat}
    {is js : List Instruction} (he : e.Accepted unit)
    (hdone : Emitted target d e o d' args d1 k is) (hargs : DefinesAll e.children args js) :
    Defines e o (js ++ is) := by
  intro hext K hvars
  obtain ⟨hjs, hready⟩ := hargs (fun x hx => hext.child hx) K fun x hx => hvars.child hx
  obtain ⟨his, ho⟩ := hdone.finished.form.definite he hext (hvars.after js) hdone.fitting hready
  rw [LaneSet.after_append] at ho
  exact ⟨definite_append.mpr ⟨hjs, his⟩, ho⟩

theorem Accepted.emit_definite {d d' : Draft} {o : Operand} (he : e.Accepted unit)
    (hemit : e.emit target d = .ok (o, d')) : ∃ is, d.Extends d' is ∧ Defines e o is :=
  he.emit_induction (P := fun _ e o _ is => Defines e o is)
    (Q := fun _ xs os _ is => DefinesAll xs os is) (fun _ => .nil) (fun _ _ => .cons)
    (fun he hdone _ => .node he hdone) hemit

theorem emitAll_definite {xs : List Expr} {d d' : Draft} {os : List Operand}
    (hxs : ∀ x ∈ xs, Accepted unit x) (hemit : emitAll target xs d = .ok (os, d')) :
    ∃ is, d.Extends d' is ∧ DefinesAll xs os is :=
  emitAll_induction (P := fun _ e o _ is => Defines e o is)
    (Q := fun _ xs os _ is => DefinesAll xs os is) (fun _ => .nil) (fun _ _ => .cons)
    (fun he hdone _ => .node he hdone) hxs hemit

end Expr

/-! ### Assignments -/

/-- What a line can write while the counter goes from `n` to `n'`: a register taken in between, lanes
of the operand that is assigned, or an element of the global buffer. -/
inductive Instruction.WritesFor (assigned? : Option Operand) (n n' : Nat) (i : Instruction) : Prop
  | fresh {r : Nat} (hplace : i.dst.place = .temp r) (hle : n ≤ r) (hlt : r < n')
  | assigned {D : Operand} (hD : assigned? = some D) (hplace : i.dst.place = D.place)
      (hmask : ∀ l, i.dst.mask.has l = true → D.mask.has l = true)
  | memory (hplace : ∀ r, i.dst.place ≠ .temp r)

theorem Draft.Extends.writesFor {assigned? : Option Operand} {d d' : Draft} {is : List Instruction}
    {n : Nat} (h : d.Extends d' is) (hn : d'.next ≤ n) :
    ∀ i ∈ is, i.WritesFor assigned? d.next n := by
  intro i hi
  obtain ⟨r, hr, hle, hlt⟩ := h.fresh i hi
  exact .fresh hr hle (Nat.lt_of_lt_of_le hlt hn)

theorem Operand.Ready.widenedTo {o : Operand} {t : ValueType} (h : o.Ready K) (ho : o.Fits t)
    (ht : t.valid = true) (D : Operand) : (o.widenedTo D).Ready K := by
  unfold Operand.widenedTo
  split_ifs
  · exact h.picked ho (Swizzle.maxLane_broadcast (ValueType.components_pos ht))
  · exact h

theorem moveLine_definite {D o : Operand} {t u : ValueType} (h : o.Ready K) (ho : o.Fits u)
    (hu : u.valid = true) (hD : D.Fits t) (ht : t.valid = true)
    (hacc : LValue.accepts t u = true) (haddress : ∀ n l, D.place.addressSet n l → K n l) :
    Definite K [moveLine D o] := by
  refine ⟨fun n l hr => ?_, trivial⟩
  rcases hr with hr | ⟨s, hs, hr⟩
  · exact haddress n l hr
  · rw [moveLine, List.mem_singleton] at hs
    subst hs
    have hfits := Operand.widenedTo_fits ho hD ht hacc
    have hpos : 0 < (o.widenedTo D).lanes.count := by
      rw [hfits.count]
      exact ValueType.lanes_pos ht
    exact h.widenedTo ho hu D n l (Place.readSet_subset (fun l => Operand.mem_alignedLanes hpos) hr)

namespace LValue

variable {dst : LValue} {d d' : Draft}

theorem Stores.definite (h : Stores target e d dst d') (he : e.Accepted unit)
    (hdst : dst.toExpr.Accepted unit) (hacc : accepts dst.type e.type = true)
    (hext : e.ExternalFree) (hdext : dst.toExpr.ExternalFree) :
    ∃ is, d.Grows d' is ∧ (∀ i ∈ is, i.WritesFor dst.operand? d.next d'.next) ∧
      ∀ K : LaneSet, e.VarsIn K → dst.toExpr.VarsIn K → Definite K is := by
  have ht : dst.type.valid = true := hdst.typed.type_valid
  have hu := he.typed.type_valid
  cases h with
  | @moved _ D o d1 hD hemit =>
    obtain ⟨is, his, hdef⟩ := he.emit_definite hemit
    have ho := he.emit_fits hemit
    obtain ⟨⟨r, hr⟩, hfits, -⟩ := operand?_fits hdst hD
    refine ⟨is ++ [moveLine D o], his.toGrows.trans (.appended _ _), fun i hi => ?_, ?_⟩
    · rcases List.mem_append.mp hi with hi | hi
      · exact his.writesFor (Nat.le_refl _) i hi
      · rw [List.mem_singleton.mp hi]
        exact .assigned hD rfl fun l hl => hl
    · intro K hK hdK
      obtain ⟨hdef, hready⟩ := hdef hext K hK
      have haddress : ∀ n l, D.place.addressSet n l → K.after is n l := by
        rw [hr]
        exact fun _ _ => False.elim
      exact definite_append.mpr
        ⟨hdef, moveLine_definite hready ho hu hfits ht hacc haddress⟩
  | @direct _ r f args d1 hf hsingle hD htype hemit =>
    obtain ⟨is, his, hdef⟩ := Expr.emitAll_definite (fun x hx => he.child hx) hemit
    obtain ⟨hs, ha, -⟩ := Expr.overload?_spec hf
    have hfit := Expr.emitAll_fitting (fun x hx => he.child hx) hemit
    refine ⟨is ++ f.lines (.ofType (.temp r) f.result) args d1.next,
      his.toGrows.trans (.appended _ _), fun i hi => ?_, ?_⟩
    · rcases List.mem_append.mp hi with hi | hi
      · exact his.writesFor (Nat.le_refl _) i hi
      · rcases Overload.lines_dst hs (Operand.ofType_fits _ hs.result_valid) hi with
          ⟨hplace, hmask⟩ | ⟨q, hq, -⟩
        · exact .assigned hD hplace hmask
        · rw [hs.scratch_of_single hsingle] at hq
          cases hq
    · intro K hK hdK
      obtain ⟨hdef, hready⟩ := hdef (fun x hx => hext.child hx) K fun x hx => hK.child hx
      exact definite_append.mpr
        ⟨hdef, Overload.lines_definite hs (Expr.Fitting.fits_args ha hfit) hready⟩
  | @elementAt t offset o d1 hemit =>
    obtain ⟨is, his, hdef⟩ := he.emit_definite hemit
    have ho := he.emit_fits hemit
    have htype : (LValue.element t ⟨none, offset⟩).type = t := Expr.type_elementAt ht
    rw [htype] at ht hacc
    have hgrows := his.toGrows.usingGlobal
    refine ⟨is ++ [moveLine (elementAtOperand t offset) o], hgrows.trans (.appended _ _),
      fun i hi => ?_, ?_⟩
    · rcases List.mem_append.mp hi with hi | hi
      · exact his.writesFor (Nat.le_refl _) i hi
      · rw [List.mem_singleton.mp hi]
        exact .memory (by simp [moveLine, Operand.destination, elementAtOperand, Operand.ofType])
    · intro K hK hdK
      obtain ⟨hdef, hready⟩ := hdef hext K hK
      exact definite_append.mpr ⟨hdef, moveLine_definite hready ho hu
        (Operand.ofType_fits _ ht) ht hacc fun _ _ => False.elim⟩
  | @element t b offset o d1 base d2 hemit hbase =>
    have hchild : b ∈ (LValue.element t ⟨some b, offset⟩).toExpr.children := by
      simp [toExpr, Address.element, Expr.children]
    obtain ⟨is, his, hdef⟩ := he.emit_definite hemit
    have ho := he.emit_fits hemit
    obtain ⟨js, hjs, hbdef⟩ := (hdst.child hchild).emit_definite hbase
    have htype : (LValue.element t ⟨some b, offset⟩).type = t := Expr.type_element ht
    rw [htype] at ht hacc
    have hgrows := his.toGrows.usingGlobal
    refine ⟨is ++ js ++ [moveLine (elementOperand t base offset) o],
      (hgrows.trans hjs.toGrows).trans (.appended _ _), fun i hi => ?_, ?_⟩
    · simp only [List.mem_append, List.mem_singleton] at hi
      rcases hi with (hi | hi) | rfl
      · exact his.writesFor hjs.next i hi
      · obtain ⟨r, hr, hle, hlt⟩ := hjs.fresh i hi
        exact .fresh hr (Nat.le_trans his.next hle) hlt
      · exact .memory (by simp [moveLine, Operand.destination, elementOperand, Operand.ofType])
    · intro K hK hdK
      obtain ⟨hdef, hready⟩ := hdef hext K hK
      obtain ⟨hbdef, hbready⟩ := hbdef (hdext.child hchild) _ ((hdK.child hchild).after is)
      rw [LaneSet.after_append] at hbready
      refine definite_append.mpr ⟨definite_append.mpr ⟨hdef, hbdef⟩, ?_⟩
      refine moveLine_definite ?_ ho hu (Operand.ofType_fits _ ht) ht hacc hbready
      rw [← LaneSet.after_append]
      exact hready.after js

end LValue

end ShaderIL
