import ShaderIL.Operation.Table
import ShaderIL.Proofs.Lane.Select

/-!
# The contract of an overload

`Overload.Sound` says what a body of patterns must satisfy, in terms of types alone: every pattern
refers to operands and components that are there, a scratch register is read only after a line has
written it, the lines together write every component of the result, and an overload marked `single`
is one line without scratch registers. On operands that fit the types of a sound overload
(`Overload.Supplied`) emission gives `Pattern.filled` for each pattern of the body
(`Overload.emit_eq`), so nothing about it can fault.
-/

namespace ShaderIL

/-! ### Filled patterns -/

namespace Operands

/-- The operand in a slot, without the check that there is one. -/
def slot (o : Operands) : Slot → Operand
  | .source i => o.sources.getD i o.result
  | .scratch i => o.scratch.getD i o.result

/-- The operand a pattern writes. -/
def targetOperand (o : Operands) : PatternTarget → Operand
  | .result => o.result
  | .resultComponent i => o.result.picked ⟨[.ofIndex i]⟩
  | .resultSpan start n => o.result.picked ⟨(List.range n).map fun i => .ofIndex (start + i)⟩
  | .scratch i => o.slot (.scratch i)

/-- The source a pattern reads when it writes `dst`. -/
def sourceOperand (o : Operands) (dst : Operand) : PatternSource → SourceOperand
  | .whole s sign => (o.slot s).signed sign
  | .component s i => ((o.slot s).picked ⟨[.ofIndex i]⟩).source
  | .aligned s => (o.slot s).alignedTo dst

end Operands

/-- The instruction of a pattern. -/
def Pattern.filled (p : Pattern) (o : Operands) : Instruction :=
  ⟨p.mnemonic, (o.targetOperand p.target).destination,
    p.sources.map (o.sourceOperand (o.targetOperand p.target))⟩

/-! ### Types of slots -/

namespace Overload

/-- An operand of type `t` is repeated to the width of the result. -/
def widens (f : Overload) (t : ValueType) : Bool :=
  f.splat && (t.components == 1 && decide (1 < f.result.components))

/-- The type of an operand after widening. -/
def widenedType (f : Overload) (t : ValueType) : ValueType :=
  if f.widens t then ⟨t.kind, f.result.components⟩ else t

/-- An operand of type `t` after widening. -/
def widenedOperand (f : Overload) (t : ValueType) (x : Operand) : Operand :=
  if f.widens t then x.picked (.broadcast .x f.result.components) else x

/-- The operands after widening. -/
def widened (f : Overload) (xs : List Operand) : List Operand :=
  List.zipWith f.widenedOperand f.args xs

/-- The type of the operand in a slot, if there is one. -/
def slotType (f : Overload) : Slot → Option ValueType
  | .source i => f.args[i]?.map f.widenedType
  | .scratch i => if i < f.scratch then some f.result else none

end Overload

/-- A pattern may write there. -/
def PatternTarget.Legal (f : Overload) : PatternTarget → Prop
  | .result => True
  | .resultComponent i => i < f.result.components
  | .resultSpan start n =>
    (⟨f.result.kind, n⟩ : ValueType).valid = true ∧ start + n ≤ f.result.components
  | .scratch i => i < f.scratch

/-- The slot a source reads. -/
def PatternSource.slot : PatternSource → Slot
  | .whole s _ | .component s _ | .aligned s => s

/-- A pattern may read it. -/
def PatternSource.Legal (f : Overload) (s : PatternSource) : Prop :=
  ∃ t, f.slotType s.slot = some t ∧
    match s with
    | .component _ i => i < t.components
    | _ => True

/-- The component of the result is written there. -/
def PatternTarget.Covers (c : Nat) : PatternTarget → Prop
  | .result => True
  | .resultComponent i => c = i
  | .resultSpan start n => start ≤ c ∧ c < start + n
  | .scratch _ => False

/-- The scratch register a pattern writes whole. -/
def PatternTarget.scratch? : PatternTarget → Option Nat
  | .scratch i => some i
  | _ => none

/-- Every scratch register is written before it is read; those in `done` are written already. -/
def ScratchReady : List Nat → List Pattern → Prop
  | _, [] => True
  | done, p :: ps =>
    (∀ s ∈ p.sources, ∀ i, s.slot = .scratch i → i ∈ done) ∧
      ScratchReady (p.target.scratch?.toList ++ done) ps

/-- The body of an overload keeps the contract. -/
structure Overload.Sound (f : Overload) : Prop where
  result_valid : f.result.valid = true
  args_valid : ∀ t ∈ f.args, t.valid = true ∧ (f.widenedType t).valid = true
  target_legal : ∀ p ∈ f.body, p.target.Legal f
  source_legal : ∀ p ∈ f.body, ∀ s ∈ p.sources, s.Legal f
  ready : ScratchReady [] f.body
  covers : ∀ c < f.result.components, ∃ p ∈ f.body, p.target.Covers c
  single_iff : f.single = true ↔ f.body.length = 1
  scratch_of_single : f.single = true → f.scratch = 0

/-- Operands that fit the types of an overload, its sources widened. -/
structure Overload.Supplied (f : Overload) (o : Operands) : Prop where
  result : o.result.Fits f.result
  sources : List.Forall₂ (fun x t => Operand.Fits x (f.widenedType t)) o.sources f.args
  scratch_length : o.scratch.length = f.scratch
  scratch : ∀ x ∈ o.scratch, x.Fits f.result

theorem Operands.targetOperand_place {o : Operands} {p : PatternTarget} (hp : p.scratch? = none) :
    (o.targetOperand p).place = o.result.place := by
  cases p with
  | result | resultComponent | resultSpan => rfl
  | scratch i => cases hp

namespace Overload

variable {f : Overload} {o : Operands}

theorem Supplied.slot_spec (h : f.Supplied o) {s : Slot} {t : ValueType}
    (hs : f.slotType s = some t) : o.read s = .ok (o.slot s) ∧ (o.slot s).Fits t := by
  cases s with
  | source i =>
    simp only [slotType, Option.map_eq_some_iff] at hs
    obtain ⟨a, ha, rfl⟩ := hs
    obtain ⟨hi, rfl⟩ := List.getElem?_eq_some_iff.mp ha
    have hi' : i < o.sources.length := by rw [h.sources.length_eq]; exact hi
    refine ⟨by simp [Operands.read, Operands.slot, hi'], ?_⟩
    simp only [Operands.slot, List.getD_eq_getElem?_getD, List.getElem?_eq_getElem hi',
      Option.getD_some]
    exact h.sources.get hi' hi
  | scratch i =>
    simp only [slotType] at hs
    split_ifs at hs with hi
    cases hs
    have hi' : i < o.scratch.length := by rw [h.scratch_length]; exact hi
    refine ⟨by simp [Operands.read, Operands.slot, hi'], ?_⟩
    simp only [Operands.slot, List.getD_eq_getElem?_getD, List.getElem?_eq_getElem hi',
      Option.getD_some]
    exact h.scratch _ (List.getElem_mem hi')

theorem Sound.slotType_valid (hf : f.Sound) {s : Slot} {t : ValueType}
    (hs : f.slotType s = some t) : t.valid = true := by
  cases s with
  | source i =>
    simp only [slotType, Option.map_eq_some_iff] at hs
    obtain ⟨a, ha, rfl⟩ := hs
    exact (hf.args_valid a (List.mem_of_getElem? ha)).2
  | scratch i =>
    simp only [slotType] at hs
    split_ifs at hs
    cases hs
    exact hf.result_valid

theorem Supplied.target_eq (h : f.Supplied o) (hf : f.Sound) {p : PatternTarget}
    (hp : p.Legal f) : o.target p = .ok (o.targetOperand p) := by
  cases p with
  | result => rfl
  | resultComponent i => exact Operand.component_eq h.result hf.result_valid hp
  | resultSpan start n => exact Operand.span_eq h.result hf.result_valid hp.1 hp.2
  | scratch i => exact (h.slot_spec (s := .scratch i) (if_pos hp)).1

theorem Supplied.source_eq (h : f.Supplied o) (hf : f.Sound) (dst : Operand) {s : PatternSource}
    (hs : s.Legal f) : o.source dst s = .ok (o.sourceOperand dst s) := by
  obtain ⟨t, ht, hc⟩ := hs
  obtain ⟨hread, hfits⟩ := h.slot_spec ht
  cases s with
  | whole s sign =>
    simp only [PatternSource.slot] at hread
    simp only [Operands.source, hread]
    rfl
  | component s i =>
    simp only [PatternSource.slot] at hread hfits
    have hcomp := Operand.component_eq hfits (hf.slotType_valid ht) hc
    simp only [Operands.source, hread]
    change ((o.slot s).component i >>= fun x => pure x.source) = _
    rw [hcomp]
    rfl
  | aligned s =>
    simp only [PatternSource.slot] at hread
    simp only [Operands.source, hread]
    rfl

theorem Supplied.instantiate_eq (h : f.Supplied o) (hf : f.Sound) {p : Pattern}
    (hp : p ∈ f.body) : p.instantiate o = .ok (p.filled o) := by
  have hsrc : p.sources.mapM (o.source (o.targetOperand p.target)) =
      .ok (p.sources.map (o.sourceOperand (o.targetOperand p.target))) :=
    mapM_except_eq_ok fun s hs => h.source_eq hf _ (hf.source_legal p hp s hs)
  rw [Pattern.instantiate, h.target_eq hf (hf.target_legal p hp)]
  change (p.sources.mapM (o.source (o.targetOperand p.target)) >>= fun srcs =>
    pure (⟨p.mnemonic, (o.targetOperand p.target).destination, srcs⟩ : Instruction)) = _
  rw [hsrc]
  rfl

/-- A line that writes the result, in whole or in part, writes lanes of it. -/
theorem Sound.holds_target (hf : f.Sound) (hr : o.result.Fits f.result) {p : PatternTarget}
    (hp : p.Legal f) (hs : p.scratch? = none) :
    o.result.Holds (o.targetOperand p).place (o.targetOperand p).lanes.lanes := by
  have hpos := ValueType.components_pos hf.result_valid
  have h4 := ValueType.components_le_four hf.result_valid
  cases p with
  | result => exact .refl _
  | resultComponent i => exact .picked hr (Swizzle.maxLane_single hp h4)
  | resultSpan i n => exact .picked hr (Swizzle.maxLane_span hp.2 hpos h4)
  | scratch i => cases hs

/-- A line writes every lane of the components its target covers. -/
theorem Sound.getD_mem_target (hf : f.Sound) (hr : o.result.Fits f.result) {p : PatternTarget}
    {k : Nat} (hk : k < f.result.lanes) (hc : p.Covers (k / f.result.laneWidth)) :
    o.result.lanes.lanes.getD k .x ∈ (o.targetOperand p).lanes.lanes := by
  have hcomp := ValueType.component_lt hk
  have h4 := ValueType.components_le_four hf.result_valid
  have hw : 0 < o.result.width := hr.width ▸ f.result.laneWidth_pos
  rw [← hr.width] at hc hcomp
  cases p with
  | result =>
    have hlen : k < o.result.lanes.lanes.length := Nat.lt_of_lt_of_eq hk hr.count.symm
    rw [List.getD_eq_getElem?_getD, List.getElem?_eq_getElem hlen]
    exact List.getElem_mem hlen
  | resultComponent i =>
    obtain rfl : k / o.result.width = i := hc
    exact Operand.getD_mem_picked hw (List.mem_singleton.mpr rfl) (Lane.val_ofIndex (by omega))
  | resultSpan i n =>
    obtain ⟨hle, hlt⟩ := hc
    refine Operand.getD_mem_picked hw
      (List.mem_map.mpr ⟨k / o.result.width - i, List.mem_range.mpr (by omega), rfl⟩) ?_
    rw [Lane.val_ofIndex (by omega)]
    omega
  | scratch i => exact hc.elim

theorem Supplied.holds_source (h : f.Supplied o) (hf : f.Sound) {s : PatternSource} (hs : s.Legal f)
    (dst : Operand) : (o.slot s.slot).Holds (o.sourceOperand dst s).place
      (o.sourceOperand dst s).lanes.lanes := by
  obtain ⟨t, ht, hc⟩ := hs
  obtain ⟨-, hfits⟩ := h.slot_spec ht
  have hv := hf.slotType_valid ht
  cases s with
  | whole s sign => exact .refl _
  | component s i =>
    exact .picked hfits (Swizzle.maxLane_single hc (ValueType.components_le_four hv))
  | aligned s =>
    have hpos : 0 < (o.slot s).lanes.count := hfits.count.symm ▸ ValueType.lanes_pos hv
    exact ⟨rfl, fun _ => Operand.mem_alignedLanes hpos⟩

/-- A line writes the lanes of the components its target covers. -/
theorem has_targetOperand {r : Nat} {p : PatternTarget} (hf : f.Sound)
    (ho : o.result = .ofType (.temp r) f.result) (hp : p.Legal f) (hs : p.scratch? = none) {l : Lane}
    (hl : l.val < f.result.lanes) :
    (o.targetOperand p).mask.has l = true ↔ p.Covers (l.val / f.result.laneWidth) := by
  have hv := hf.result_valid
  have hcount := ValueType.components_le_four hv
  have hpos := ValueType.components_pos hv
  rw [Operand.has_mask]
  cases p with
  | result => simpa only [Operands.targetOperand, ho, PatternTarget.Covers, iff_true,
      Operand.mem_ofType] using hl
  | resultComponent i =>
    have hi : i < f.result.components := hp
    simp only [Operands.targetOperand, ho, PatternTarget.Covers,
      Operand.mem_picked_ofType _ hv (Swizzle.maxLane_single hi hcount), List.mem_singleton,
      exists_eq_left, Lane.val_ofIndex (Nat.lt_of_lt_of_le hi hcount)]
    exact eq_comm
  | resultSpan i c =>
    obtain ⟨-, hspan⟩ := hp
    simp only [Operands.targetOperand, ho, PatternTarget.Covers,
      Operand.mem_picked_ofType _ hv (Swizzle.maxLane_span hspan hpos hcount), List.mem_map,
      List.mem_range]
    constructor
    · rintro ⟨_, ⟨q, hq, rfl⟩, hval⟩
      rw [Lane.val_ofIndex (by omega)] at hval
      omega
    · rintro ⟨hle, hlt⟩
      refine ⟨_, ⟨l.val / f.result.laneWidth - i, by omega, rfl⟩, ?_⟩
      rw [Lane.val_ofIndex (by omega)]
      omega
  | scratch i => cases hs

/-! ### Widening -/

theorem widenedOperand_fits (f : Overload) {t : ValueType} {x : Operand} (hx : x.Fits t) :
    (f.widenedOperand t x).Fits (f.widenedType t) := by
  unfold widenedOperand widenedType
  split_ifs with hw
  · have hfits := Operand.picked_fits (p := .broadcast .x f.result.components) hx
    simpa [Swizzle.count, Swizzle.broadcast] using hfits
  · exact hx

theorem holds_widenedOperand (f : Overload) {t : ValueType} {x : Operand} (hx : x.Fits t)
    (ht : t.valid = true) :
    x.Holds (f.widenedOperand t x).place (f.widenedOperand t x).lanes.lanes := by
  unfold widenedOperand
  split_ifs
  · exact .picked hx (Swizzle.maxLane_broadcast (ValueType.components_pos ht))
  · exact .refl x

theorem Sound.widenOperand_eq (hf : f.Sound) {t : ValueType} (ht : t ∈ f.args) {x : Operand}
    (hx : x.Fits t) (hsplat : f.splat = true) :
    f.widenOperand t x = .ok (f.widenedOperand t x) := by
  obtain ⟨hv, hwv⟩ := hf.args_valid t ht
  unfold widenOperand widenedOperand widenedType widens at *
  simp only [hsplat, Bool.true_and] at *
  split_ifs at * with hw
  · exact Operand.splat_eq hx hv hwv
  · rfl

theorem widenSources_eq (hf : f.Sound) (hsplat : f.splat = true) : ∀ {ts : List ValueType}
    {xs : List Operand}, ts ⊆ f.args → List.Forall₂ Operand.Fits xs ts →
      f.widenSources ts xs = .ok (List.zipWith f.widenedOperand ts xs)
  | _, _, _, .nil => rfl
  | t :: ts, x :: xs, hsub, .cons hx hxs => by
    have hrest := widenSources_eq hf hsplat (fun a ha => hsub (by simp [ha])) hxs
    rw [widenSources, hf.widenOperand_eq (hsub (by simp)) hx hsplat, hrest]
    rfl

theorem zipWith_widenedOperand_of_not_splat (hsplat : f.splat = false) :
    ∀ {ts : List ValueType} {xs : List Operand}, List.Forall₂ Operand.Fits xs ts →
      List.zipWith f.widenedOperand ts xs = xs
  | _, _, .nil => rfl
  | t :: ts, x :: xs, .cons _ hxs => by
    rw [List.zipWith_cons_cons, zipWith_widenedOperand_of_not_splat hsplat hxs]
    simp [widenedOperand, widens, hsplat]

theorem forall₂_zipWith_widened (f : Overload) : ∀ {ts : List ValueType} {xs : List Operand},
    List.Forall₂ Operand.Fits xs ts →
      List.Forall₂ (fun x t => Operand.Fits x (f.widenedType t))
        (List.zipWith f.widenedOperand ts xs) ts
  | _, _, .nil => .nil
  | _ :: _, _ :: _, .cons hx hxs =>
    .cons (f.widenedOperand_fits hx) (f.forall₂_zipWith_widened hxs)

theorem supplied_widened (f : Overload) {dst : Operand} {xs scratch : List Operand}
    (hdst : dst.Fits f.result) (hxs : List.Forall₂ Operand.Fits xs f.args)
    (hlen : scratch.length = f.scratch) (hscratch : ∀ x ∈ scratch, x.Fits f.result) :
    f.Supplied ⟨dst, f.widened xs, scratch⟩ :=
  ⟨hdst, f.forall₂_zipWith_widened hxs, hlen, hscratch⟩

theorem slot_widened {args : List Operand} {dst : Operand} {scratch : List Operand} {i : Nat}
    {t : ValueType} {o : Operand} (hi : f.args[i]? = some t) (ho : args[i]? = some o) :
    Operands.slot ⟨dst, f.widened args, scratch⟩ (.source i) = f.widenedOperand t o := by
  simp [Operands.slot, widened, List.getD_eq_getElem?_getD, List.getElem?_zipWith, hi, ho]

/-- A slot that is read is filled with lanes of a given operand or with a scratch operand. -/
theorem Sound.slot_cases (hf : f.Sound) {xs : List Operand}
    (hxs : List.Forall₂ Operand.Fits xs f.args) (ho : o.sources = f.widened xs) {s : PatternSource}
    (hs : s.Legal f) :
    (∃ x ∈ xs, x.Holds (o.slot s.slot).place (o.slot s.slot).lanes.lanes) ∨
      ∃ q < f.scratch, s.slot = .scratch q := by
  obtain ⟨dst, sources, scratch⟩ := o
  obtain rfl : sources = f.widened xs := ho
  obtain ⟨t, ht, -⟩ := hs
  cases hslot : s.slot with
  | source j =>
    rw [hslot, slotType, Option.map_eq_some_iff] at ht
    obtain ⟨a, ha, -⟩ := ht
    obtain ⟨hj, rfl⟩ := List.getElem?_eq_some_iff.mp ha
    have hj' : j < xs.length := by rw [hxs.length_eq]; exact hj
    rw [slot_widened ha (List.getElem?_eq_getElem hj')]
    exact .inl ⟨xs[j], List.getElem_mem hj', f.holds_widenedOperand (hxs.get hj' hj)
      (hf.args_valid _ (List.getElem_mem hj)).1⟩
  | scratch q =>
    rw [hslot, slotType] at ht
    exact .inr ⟨q, (Option.ite_none_right_eq_some.mp ht).1, rfl⟩

/-- Emission of a sound overload on operands of its types fills in the patterns of its body. -/
theorem Sound.emit_eq (hf : f.Sound) {dst : Operand} {xs scratch : List Operand}
    (hdst : dst.Fits f.result) (hxs : List.Forall₂ Operand.Fits xs f.args)
    (hlen : scratch.length = f.scratch) (hscratch : ∀ x ∈ scratch, x.Fits f.result) :
    f.emit dst xs scratch = .ok (f.body.map fun p => p.filled ⟨dst, f.widened xs, scratch⟩) := by
  have hsup := f.supplied_widened hdst hxs hlen hscratch
  have hbody : (f.body.mapM fun p => p.instantiate ⟨dst, f.widened xs, scratch⟩) =
      .ok (f.body.map fun p => p.filled ⟨dst, f.widened xs, scratch⟩) :=
    mapM_except_eq_ok fun p hp => hsup.instantiate_eq hf hp
  unfold emit
  split_ifs with hsplat
  · rw [widenSources_eq hf hsplat (List.Subset.refl _) hxs]
    exact hbody
  · have hxs' := zipWith_widenedOperand_of_not_splat (by simpa using hsplat) hxs
    rw [widened, hxs'] at hbody
    rw [widened, hxs']
    exact hbody

end Overload

end ShaderIL
