import Mathlib.Tactic
import ShaderIL.Instruction

/-!
# Selecting lanes

What the partial operations on operands do where they are defined. An operand `Fits` a type if it
has the lanes and the lane width of a value of that type. On such an operand a pattern that stays
inside the components selects the operand `Operand.picked`, and single components, spans and
repetitions are special patterns. The lanes of every part are lanes of the whole
(`mem_picked_lanes`, `mem_alignedLanes`), and the mask of an operand is the set of its lanes
(`has_mask`).
-/

namespace ShaderIL

/-! ### Types that fit a register -/

namespace ValueType

theorem valid_iff (t : ValueType) :
    t.valid = true ↔ t.kind ≠ .invalid ∧
      (t.components = 1 ∨ t.components = 2 ∨ (t.components = 4 ∧ t.kind ≠ .double)) := by
  unfold valid
  split <;> simp_all

@[simp] theorem valid_invalid : invalid.valid = false := rfl

theorem laneWidth_cases (t : ValueType) : t.laneWidth = 1 ∨ t.laneWidth = 2 := by
  unfold laneWidth Kind.laneWidth
  split <;> simp

theorem laneWidth_eq_one {t : ValueType} (h : t.kind ≠ .double) : t.laneWidth = 1 := by
  unfold laneWidth Kind.laneWidth
  split
  · contradiction
  · rfl

theorem laneWidth_pos (t : ValueType) : 0 < t.laneWidth := by
  rcases t.laneWidth_cases with h | h <;> omega

theorem components_pos {t : ValueType} (h : t.valid = true) : 0 < t.components := by
  obtain ⟨-, h⟩ := t.valid_iff.mp h
  omega

theorem components_le_four {t : ValueType} (h : t.valid = true) : t.components ≤ 4 := by
  obtain ⟨-, h⟩ := t.valid_iff.mp h
  omega

theorem lanes_pos {t : ValueType} (h : t.valid = true) : 0 < t.lanes :=
  Nat.mul_pos (components_pos h) t.laneWidth_pos

theorem lanes_le_four {t : ValueType} (h : t.valid = true) : t.lanes ≤ 4 := by
  obtain ⟨-, hc⟩ := t.valid_iff.mp h
  unfold lanes
  rcases t.laneWidth_cases with hw | hw <;> rw [hw]
  · omega
  · by_cases hd : t.kind = .double
    · simp only [hd, ne_eq, not_true_eq_false, and_false, or_false] at hc
      omega
    · rw [laneWidth_eq_one hd] at hw
      omega

theorem lane_lt {t : ValueType} {k j : Nat} (hk : k < t.components) (hj : j < t.laneWidth) :
    k * t.laneWidth + j < t.lanes := by
  calc k * t.laneWidth + j < k * t.laneWidth + t.laneWidth := by omega
    _ = (k + 1) * t.laneWidth := (Nat.succ_mul _ _).symm
    _ ≤ t.components * t.laneWidth := Nat.mul_le_mul_right _ hk

theorem component_lt {t : ValueType} {p : Nat} (hp : p < t.lanes) :
    p / t.laneWidth < t.components := by
  rw [Nat.div_lt_iff_lt_mul t.laneWidth_pos]
  exact hp

theorem vector_eq {k : Kind} {n : Nat} (h : (⟨k, n⟩ : ValueType).valid = true) :
    vector k n = ⟨k, n⟩ := by
  obtain ⟨-, hc⟩ := (valid_iff _).mp h
  simp only at hc
  have hn : (1 : Int) ≤ n ∧ (n : Int) ≤ 4 := by omega
  simp [vector, hn, h]

theorem valid_vector {k : Kind} {n : Nat} (h : (vector k n).valid = true) :
    (⟨k, n⟩ : ValueType).valid = true ∧ vector k n = ⟨k, n⟩ := by
  unfold vector at h ⊢
  split_ifs at h ⊢ with hc
  · simp only [Bool.and_eq_true, Int.toNat_natCast] at hc ⊢
    exact ⟨hc.2, trivial⟩
  · simp at h

end ValueType

/-! ### Lists of checked values -/

theorem mapM_option_eq_some {α β : Type} {f : α → Option β} {g : α → β} :
    ∀ {l : List α}, (∀ a ∈ l, f a = some (g a)) → l.mapM f = some (l.map g)
  | [], _ => rfl
  | a :: l, h => by
    have hl := mapM_option_eq_some (l := l) fun b hb => h b (by simp [hb])
    simp [List.mapM_cons, h a (by simp), hl]

theorem mapM_except_eq_ok {ε α β : Type} {f : α → Except ε β} {g : α → β} :
    ∀ {l : List α}, (∀ a ∈ l, f a = .ok (g a)) → l.mapM f = .ok (l.map g)
  | [], _ => rfl
  | a :: l, h => by
    have hl := mapM_except_eq_ok (l := l) fun b hb => h b (by simp [hb])
    rw [List.mapM_cons, h a (by simp), hl]
    rfl

/-! ### Patterns -/

/-- The lane of a number; numbers beyond the fourth lane wrap around. -/
def Lane.ofIndex (i : Nat) : Lane := ⟨i % 4, Nat.mod_lt _ (by decide)⟩

@[simp] theorem Lane.val_ofIndex {i : Nat} (h : i < 4) : (Lane.ofIndex i).val = i :=
  Nat.mod_eq_of_lt h

namespace Swizzle

theorem le_foldl_max : ∀ (l : List Lane) (m : Nat),
    m ≤ l.foldl (fun m c => max m c.val) m ∧ ∀ c ∈ l, c.val ≤ l.foldl (fun m c => max m c.val) m
  | [], m => by simp
  | a :: l, m => by
    obtain ⟨h1, h2⟩ := le_foldl_max l (max m a.val)
    simp only [List.foldl_cons, List.mem_cons, forall_eq_or_imp]
    exact ⟨by omega, by omega, h2⟩

theorem le_maxLane {s : Swizzle} {c : Lane} (h : c ∈ s.lanes) : c.val ≤ s.maxLane :=
  (le_foldl_max s.lanes 0).2 c h

theorem foldl_max_lt {n : Nat} : ∀ (l : List Lane) {m : Nat}, m < n → (∀ c ∈ l, c.val < n) →
    l.foldl (fun m c => max m c.val) m < n
  | [], _, hm, _ => hm
  | a :: l, m, hm, h =>
    foldl_max_lt l (Nat.max_lt.mpr ⟨hm, h a (by simp)⟩) fun c hc => h c (by simp [hc])

theorem maxLane_lt {s : Swizzle} {n : Nat} (hn : 0 < n) (h : ∀ c ∈ s.lanes, c.val < n) :
    s.maxLane < n :=
  foldl_max_lt s.lanes hn h

theorem maxLane_single {i n : Nat} (hi : i < n) (hn : n ≤ 4) :
    (⟨[.ofIndex i]⟩ : Swizzle).maxLane < n := by
  refine maxLane_lt (by omega) fun c hc => ?_
  rw [List.mem_singleton.mp hc, Lane.val_ofIndex (by omega)]
  exact hi

theorem maxLane_span {start c n : Nat} (h : start + c ≤ n) (h0 : 0 < n) (hn : n ≤ 4) :
    (⟨(List.range c).map fun i => .ofIndex (start + i)⟩ : Swizzle).maxLane < n := by
  refine maxLane_lt h0 fun d hd => ?_
  obtain ⟨i, hi, rfl⟩ := List.mem_map.mp hd
  rw [List.mem_range] at hi
  rw [Lane.val_ofIndex (by omega)]
  omega

theorem maxLane_broadcast {c n : Nat} (hn : 0 < n) : (broadcast .x c).maxLane < n := by
  refine maxLane_lt hn fun d hd => ?_
  rw [(List.mem_replicate.mp hd).2]
  exact hn

theorem lanes_identity (n : Nat) : (identity n).lanes = (List.finRange 4).take n := rfl

theorem count_identity {n : Nat} (h : n ≤ 4) : (identity n).count = n := by
  simp [identity, count, h]

theorem getD_identity {n k : Nat} (hn : n ≤ 4) (hk : k < n) :
    ((identity n).lanes.getD k .x).val = k := by
  simp only [identity, List.getD_eq_getElem?_getD, List.getElem?_take, hk, if_true]
  rw [List.getElem?_eq_getElem (by simp; omega)]
  simp

theorem getD_of_isIdentity {s : Swizzle} (h : s.isIdentity = true) (h4 : s.count ≤ 4) {k : Nat}
    (hk : k < s.count) : (s.lanes.getD k .x).val = k := by
  rw [isIdentity, beq_iff_eq] at h
  rw [h]
  exact getD_identity h4 hk

theorem laneOf_natCast {i : Nat} (h : i < 4) : laneOf (i : Int) = .ok (.ofIndex i) := by
  have hi : ((i : Int) % 256).toNat = i := by omega
  simp [laneOf, hi, h, Lane.ofIndex, Nat.mod_eq_of_lt h]

/-- Selectors given by numbers below four make the pattern of those lanes. -/
theorem ofNumbers_natCast {n : Nat} {f : Nat → Nat} (hn : n ≤ 4) (hf : ∀ i < n, f i < 4) :
    ofNumbers (n : Int) (fun i => (f i : Int)) =
      .ok ⟨(List.range n).map fun i => .ofIndex (f i)⟩ := by
  have h4 : ¬ (4 : Int) < n := by omega
  have h0 : ¬ (n : Int) < 0 := by omega
  rw [ofNumbers, if_neg h4, if_neg h0, Int.toNat_natCast,
    mapM_except_eq_ok fun i hi => laneOf_natCast (hf i (List.mem_range.mp hi))]
  rfl

end Swizzle

/-! ### Operands -/

/-- The operand has the lanes of a value of a type. -/
structure Operand.Fits (o : Operand) (t : ValueType) : Prop where
  count : o.lanes.count = t.lanes
  width : o.width = t.laneWidth

namespace Operand

variable {o : Operand} {t : ValueType} {p : Swizzle}

/-- The operand made of the components a pattern names, without the check of the lanes. -/
def picked (o : Operand) (p : Swizzle) : Operand :=
  { o with lanes := ⟨(positions o.width p).map fun i => o.lanes.lanes.getD i .x⟩ }

@[simp] theorem picked_place (o : Operand) (p : Swizzle) : (o.picked p).place = o.place := rfl

@[simp] theorem picked_width (o : Operand) (p : Swizzle) : (o.picked p).width = o.width := rfl

theorem ofType_fits (place : Place) (h : t.valid = true) : (ofType place t).Fits t :=
  ⟨Swizzle.count_identity (ValueType.lanes_le_four h), rfl⟩

theorem Fits.components_eq (h : o.Fits t) : o.components = t.components := by
  have hw := t.laneWidth_pos
  have h0 : (t.laneWidth == 0) = false := by rw [beq_eq_false_iff_ne]; omega
  simp only [components, h.count, h.width, ValueType.lanes, h0]
  exact Nat.mul_div_cancel _ hw

/-- Only the number of components counts where every component is one lane. -/
theorem Fits.of_single_lanes {t' : ValueType} (h : o.Fits t) (ht : t.kind ≠ .double)
    (ht' : t'.kind ≠ .double) (hc : t.components = t'.components) : o.Fits t' := by
  have hw := ValueType.laneWidth_eq_one ht
  have hw' := ValueType.laneWidth_eq_one ht'
  refine ⟨?_, by rw [h.width, hw, hw']⟩
  rw [h.count, ValueType.lanes, ValueType.lanes, hw, hw', hc]

theorem length_positions (w : Nat) (p : Swizzle) : (positions w p).length = p.count * w := by
  obtain ⟨l⟩ := p
  simp only [positions, Swizzle.count]
  induction l with
  | nil => simp
  | cons c l ih =>
    simp only [List.flatMap_cons, List.length_append, List.length_map, List.length_range,
      List.length_cons, ih, Nat.succ_mul]
    omega

theorem mem_positions {w i : Nat} (h : i ∈ positions w p) :
    ∃ c ∈ p.lanes, ∃ j < w, i = c.val * w + j := by
  simp only [positions, List.mem_flatMap, List.mem_map, List.mem_range] at h
  obtain ⟨c, hc, j, hj, rfl⟩ := h
  exact ⟨c, hc, j, hj, rfl⟩

theorem mem_positions_of_div {w k : Nat} (hw : 0 < w) {c : Lane} (hc : c ∈ p.lanes)
    (hk : c.val = k / w) : k ∈ positions w p := by
  simp only [positions, List.mem_flatMap, List.mem_map, List.mem_range]
  refine ⟨c, hc, k % w, Nat.mod_lt _ hw, ?_⟩
  rw [hk, Nat.mul_comm, Nat.div_add_mod]

theorem getElem?_positions {w : Nat} (hw : 0 < w) : ∀ (l : List Lane) {k : Nat},
    k < l.length * w →
      (positions w ⟨l⟩)[k]? = some ((l.getD (k / w) .x).val * w + k % w)
  | [], k, hk => by simp at hk
  | c :: l, k, hk => by
    have hcons : positions w ⟨c :: l⟩ =
        (List.range w).map (fun j => c.val * w + j) ++ positions w ⟨l⟩ := rfl
    rw [hcons]
    by_cases hlt : k < w
    · rw [List.getElem?_append_left (by simpa using hlt)]
      simp [Nat.div_eq_of_lt hlt, Nat.mod_eq_of_lt hlt, hlt]
    · rw [List.getElem?_append_right (by simpa using Nat.le_of_not_lt hlt)]
      obtain ⟨m, rfl⟩ := Nat.exists_eq_add_of_le (Nat.le_of_not_lt hlt)
      have hm : m < l.length * w := by
        simp only [List.length_cons, Nat.succ_mul] at hk
        omega
      have hdiv : (w + m) / w = m / w + 1 := by
        rw [Nat.add_comm, Nat.add_div_right _ hw]
      simp only [List.length_map, List.length_range, Nat.add_sub_cancel_left, Nat.add_mod_left, hdiv,
        List.getD_cons_succ]
      exact getElem?_positions hw l hm

/-- The lane at a position of a selection: the component comes from the pattern. -/
theorem getD_picked (hw : 0 < o.width) {k : Nat} (hk : k < p.count * o.width) :
    (o.picked p).lanes.lanes.getD k .x =
      o.lanes.lanes.getD ((p.lanes.getD (k / o.width) .x).val * o.width + k % o.width) .x := by
  have h := getElem?_positions hw p.lanes hk
  simp only [picked, List.getD_eq_getElem?_getD, List.getElem?_map] at h ⊢
  rw [h]
  rfl

theorem count_picked (o : Operand) (p : Swizzle) :
    (o.picked p).lanes.count = p.count * o.width := by
  simp [picked, Swizzle.count, length_positions]

/-- A pattern inside the components names positions inside the lanes. -/
theorem positions_lt (ho : o.Fits t) (hp : p.maxLane < t.components) {i : Nat}
    (hi : i ∈ positions o.width p) : i < o.lanes.count := by
  obtain ⟨c, hc, j, hj, rfl⟩ := mem_positions hi
  have hle := Swizzle.le_maxLane hc
  rw [ho.count, ValueType.lanes, ← ho.width]
  calc c.val * o.width + j < c.val * o.width + o.width := by omega
    _ = (c.val + 1) * o.width := (Nat.succ_mul _ _).symm
    _ ≤ t.components * o.width := Nat.mul_le_mul_right _ (by omega)

theorem picked_fits (ho : o.Fits t) : (o.picked p).Fits ⟨t.kind, p.count⟩ :=
  ⟨by rw [count_picked, ho.width]; rfl, ho.width⟩

theorem select_eq (ho : o.Fits t) (ht : t.valid = true) (hp : p.maxLane < t.components)
    (hv : (⟨t.kind, p.count⟩ : ValueType).valid = true) : o.select p = .ok (o.picked p) := by
  have h4 : o.lanes.count ≤ 4 := ho.count ▸ ValueType.lanes_le_four ht
  have hlen : (positions o.width p).length ≤ 4 := by
    rw [length_positions, ho.width]
    exact ValueType.lanes_le_four hv
  have hat : ∀ i ∈ positions o.width p, o.lanes.at? i = some (o.lanes.lanes.getD i .x) :=
    fun i hi => if_pos (Nat.lt_of_lt_of_le (positions_lt ho hp hi) h4)
  simp only [select, mapM_option_eq_some hat, List.length_map, hlen, if_true]
  rfl

theorem mem_picked_lanes (ho : o.Fits t) (hp : p.maxLane < t.components) {l : Lane}
    (hl : l ∈ (o.picked p).lanes.lanes) : l ∈ o.lanes.lanes := by
  simp only [picked, List.mem_map] at hl
  obtain ⟨i, hi, rfl⟩ := hl
  have hlt : i < o.lanes.lanes.length := positions_lt ho hp hi
  rw [List.getD_eq_getElem?_getD, List.getElem?_eq_getElem hlt]
  exact List.getElem_mem hlt

theorem getD_mem_picked (hw : 0 < o.width) {c : Lane} {k : Nat} (hc : c ∈ p.lanes)
    (hk : c.val = k / o.width) : o.lanes.lanes.getD k .x ∈ (o.picked p).lanes.lanes :=
  List.mem_map.mpr ⟨k, mem_positions_of_div hw hc hk, rfl⟩

/-! ### Parts of whole registers -/

theorem mul_add_div_of_lt {w j : Nat} (hj : j < w) (k : Nat) : (k * w + j) / w = k := by
  rw [Nat.mul_comm, Nat.mul_add_div (by omega), Nat.div_eq_of_lt hj, Nat.add_zero]

theorem mul_add_mod_of_lt {w j : Nat} (hj : j < w) (k : Nat) : (k * w + j) % w = j := by
  rw [Nat.mul_comm, Nat.mul_add_mod, Nat.mod_eq_of_lt hj]

theorem val_getD_ofType (place : Place) (ht : t.valid = true) {k : Nat} (hk : k < t.lanes) :
    ((ofType place t).lanes.lanes.getD k .x).val = k :=
  Swizzle.getD_identity (ValueType.lanes_le_four ht) hk

theorem getD_ofType (place : Place) (ht : t.valid = true) {k : Nat} (hk : k < t.lanes) :
    (ofType place t).lanes.lanes.getD k .x = .ofIndex k := by
  have h4 := ValueType.lanes_le_four ht
  refine Fin.ext ?_
  rw [val_getD_ofType place ht hk, Lane.val_ofIndex (by omega)]

theorem mem_ofType (place : Place) (t : ValueType) {l : Lane} :
    l ∈ (ofType place t).lanes.lanes ↔ l.val < t.lanes := by
  have h4 := l.isLt
  simp only [ofType, Swizzle.lanes_identity, List.mem_take_iff_getElem, List.length_finRange,
    List.getElem_finRange, Fin.ext_iff]
  constructor
  · rintro ⟨i, hi, hl⟩
    simp only [Fin.val_cast] at hl
    omega
  · intro hl
    exact ⟨l.val, by omega, rfl⟩

theorem positions_ofType_lt (ht : t.valid = true) (hp : p.maxLane < t.components) {i : Nat}
    (hi : i ∈ positions t.laneWidth p) : i < t.lanes := by
  have hfits := ofType_fits .threadId ht
  rw [← hfits.count]
  exact positions_lt hfits hp hi

theorem mem_picked_ofType (place : Place) (ht : t.valid = true) (hp : p.maxLane < t.components)
    {l : Lane} : l ∈ ((ofType place t).picked p).lanes.lanes ↔
      ∃ c ∈ p.lanes, c.val = l.val / t.laneWidth := by
  have hw := t.laneWidth_pos
  constructor
  · intro hl
    obtain ⟨i, hi, rfl⟩ := List.mem_map.mp hl
    rw [val_getD_ofType place ht (positions_ofType_lt ht hp hi)]
    obtain ⟨c, hc, j, hj, rfl⟩ := mem_positions hi
    exact ⟨c, hc, (mul_add_div_of_lt hj _).symm⟩
  · rintro ⟨c, hc, hcl⟩
    have hi := mem_positions_of_div hw hc hcl
    refine List.mem_map.mpr ⟨l.val, hi, Fin.ext ?_⟩
    exact val_getD_ofType place ht (positions_ofType_lt ht hp hi)

theorem nodup_positions {w : Nat} (hp : p.lanes.Nodup) : (positions w p).Nodup := by
  refine List.nodup_flatMap.mpr ⟨fun c _ => ?_, ?_⟩
  · exact List.nodup_range.map (add_right_injective _)
  · refine hp.imp fun {c c'} hne => ?_
    simp only [Function.onFun, List.disjoint_left, List.mem_map, List.mem_range]
    rintro _ ⟨j, hj, rfl⟩ ⟨j', hj', heq⟩
    have hc : (c.val * w + j) / w = c.val := mul_add_div_of_lt hj _
    rw [← heq, mul_add_div_of_lt hj'] at hc
    exact hne (Fin.ext hc.symm)

theorem nodup_picked_ofType (place : Place) (ht : t.valid = true) (hp : p.maxLane < t.components)
    (hnodup : p.lanes.Nodup) : ((ofType place t).picked p).lanes.lanes.Nodup := by
  refine List.Nodup.map_on (fun i hi j hj hij => ?_) (nodup_positions hnodup)
  have hval := congrArg Fin.val hij
  rwa [val_getD_ofType place ht (positions_ofType_lt ht hp hi),
    val_getD_ofType place ht (positions_ofType_lt ht hp hj)] at hval

theorem val_getD_picked_ofType (place : Place) (ht : t.valid = true)
    (hp : p.maxLane < t.components) {k j : Nat} (hk : k < p.count) (hj : j < t.laneWidth) :
    (((ofType place t).picked p).lanes.lanes.getD (k * t.laneWidth + j) .x).val =
      (p.lanes.getD k .x).val * t.laneWidth + j := by
  have hw : (ofType place t).width = t.laneWidth := rfl
  have hlt : k * t.laneWidth + j < p.count * (ofType place t).width := by
    calc k * t.laneWidth + j < k * t.laneWidth + t.laneWidth := by omega
      _ = (k + 1) * t.laneWidth := (Nat.succ_mul _ _).symm
      _ ≤ p.count * t.laneWidth := Nat.mul_le_mul_right _ hk
  rw [getD_picked t.laneWidth_pos hlt, hw, mul_add_div_of_lt hj, mul_add_mod_of_lt hj]
  refine val_getD_ofType place ht (positions_ofType_lt ht hp ?_)
  simp only [positions, List.mem_flatMap, List.mem_map, List.mem_range]
  refine ⟨p.lanes.getD k .x, ?_, j, hj, rfl⟩
  rw [List.getD_eq_getElem?_getD, List.getElem?_eq_getElem hk]
  exact List.getElem_mem hk

/-! ### Components, spans and repetitions -/

theorem component_eq (ho : o.Fits t) (ht : t.valid = true) {i : Nat} (hi : i < t.components) :
    o.component i = .ok (o.picked ⟨[.ofIndex i]⟩) := by
  obtain ⟨hk, hc⟩ := t.valid_iff.mp ht
  have hnum := Swizzle.ofNumbers_natCast (n := 1) (f := fun _ => i) (by omega) fun _ _ => by omega
  have hmax := Swizzle.maxLane_single hi (by omega)
  have hv : (⟨t.kind, 1⟩ : ValueType).valid = true := (ValueType.valid_iff _).mpr ⟨hk, by simp⟩
  have hsel := select_eq ho ht hmax hv
  rw [component]
  change (Swizzle.ofNumbers ((1 : Nat) : Int) (fun _ => (i : Int)) >>= fun p => o.select p) = _
  rw [hnum]
  exact hsel

theorem span_eq (ho : o.Fits t) (ht : t.valid = true) {start n : Nat}
    (hn : (⟨t.kind, n⟩ : ValueType).valid = true) (hs : start + n ≤ t.components) :
    o.span start n = .ok (o.picked ⟨(List.range n).map fun i => .ofIndex (start + i)⟩) := by
  obtain ⟨hk, hc⟩ := t.valid_iff.mp ht
  have hpos := ValueType.components_pos hn
  simp only at hpos
  have hnum := Swizzle.ofNumbers_natCast (n := n) (f := fun i => start + i) (by omega)
    fun i hi => by omega
  have hmax := Swizzle.maxLane_span hs (ValueType.components_pos ht) (by omega)
  have hsel := select_eq ho ht hmax (by simpa [Swizzle.count] using hn)
  rw [span]
  push_cast at hnum
  rw [hnum]
  exact hsel

theorem splat_eq (ho : o.Fits t) (ht : t.valid = true) {n : Nat}
    (hn : (⟨t.kind, n⟩ : ValueType).valid = true) :
    o.splat n = .ok (o.picked (.broadcast .x n)) := by
  obtain ⟨hk, hc⟩ := (ValueType.valid_iff _).mp hn
  simp only at hc
  have hnum := Swizzle.ofNumbers_natCast (n := n) (f := fun _ => 0) (by omega) fun _ _ => by omega
  have hlanes : (⟨(List.range n).map fun _ => Lane.ofIndex 0⟩ : Swizzle) = .broadcast .x n := by
    simp [Swizzle.broadcast, Lane.ofIndex, Lane.x]
  have hsel := select_eq ho ht (Swizzle.maxLane_broadcast (ValueType.components_pos ht))
    (by simpa [Swizzle.count, Swizzle.broadcast] using hn)
  rw [splat]
  rw [hlanes] at hnum
  change (Swizzle.ofNumbers (n : Int) (fun _ => ((0 : Nat) : Int)) >>= fun p => o.select p) = _
  rw [hnum]
  exact hsel

/-! ### Lanes moved to where a destination is written -/

theorem mem_foldl_set {l : Lane} : ∀ (zs : List (Lane × Lane)) {b : List Lane},
    l ∈ zs.foldl (fun b z => b.set z.1.val z.2) b → l ∈ b ∨ ∃ z ∈ zs, l = z.2
  | [], _, h => .inl h
  | z :: zs, b, h => by
    rcases mem_foldl_set zs h with hb | ⟨y, hy, rfl⟩
    · rcases List.mem_or_eq_of_mem_set hb with hb | rfl
      · exact .inl hb
      · exact .inr ⟨z, by simp, rfl⟩
    · exact .inr ⟨y, by simp [hy], rfl⟩

theorem mem_alignedLanes {dst : Operand} (h0 : 0 < o.lanes.count) {l : Lane}
    (hl : l ∈ (o.alignedLanes dst).lanes) : l ∈ o.lanes.lanes := by
  unfold alignedLanes at hl
  split_ifs at hl with hid
  · exact hl
  · rcases mem_foldl_set _ hl with hb | ⟨z, hz, rfl⟩
    · rw [(List.mem_replicate.mp hb).2, List.getD_eq_getElem?_getD, List.getElem?_eq_getElem h0]
      exact List.getElem_mem h0
    · exact (List.of_mem_zip hz).2

end Operand

/-! ### Masks -/

namespace WriteMask

theorem has_insert (m : WriteMask) (a l : Lane) :
    (m.insert a).has l = (m.has l || decide (a = l)) := by
  simp only [has, insert, Nat.testBit_or, Nat.one_shiftLeft, Nat.testBit_two_pow, Fin.ext_iff]

theorem has_foldl_insert (l : Lane) : ∀ (ls : List Lane) (m : WriteMask),
    (ls.foldl insert m).has l = true ↔ m.has l = true ∨ l ∈ ls
  | [], m => by simp
  | a :: ls, m => by
    rw [List.foldl_cons, has_foldl_insert l ls, has_insert]
    simp only [Bool.or_eq_true, decide_eq_true_eq, List.mem_cons]
    tauto

theorem has_ofSwizzle (s : Swizzle) (l : Lane) : (ofSwizzle s).has l = true ↔ l ∈ s.lanes := by
  rw [ofSwizzle, has_foldl_insert]
  simp [has, empty]

theorem mem_lanes (m : WriteMask) (l : Lane) : l ∈ m.lanes ↔ m.has l = true := by
  simp [lanes]

theorem has_of_insertBytes {mask : String} {l : Lane} : ∀ (bs : List UInt8) {m m' : WriteMask},
    insertBytes mask bs m = .ok m' → m.has l = true → m'.has l = true
  | [], m, m', h, hl => by cases h; exact hl
  | b :: bs, m, m', h, hl => by
    unfold insertBytes at h
    split at h
    · cases h
    · split_ifs at h
      exact has_of_insertBytes bs h (by simp [has_insert, hl])

/-- A mask that could be read names at least one lane. -/
theorem count_pos_of_parse {mask : String} {m : WriteMask} (h : parse mask = .ok m) :
    0 < m.swizzle.count := by
  unfold parse at h
  simp only at h
  split_ifs at h with hlen
  cases hb : Text.bytes mask with
  | nil => simp [hb] at hlen
  | cons b bs =>
    rw [hb, insertBytes] at h
    split at h
    · cases h
    · rename_i l _
      have hl : m.has l = true := by
        split_ifs at h
        exact has_of_insertBytes bs h (by simp [has_insert])
      exact List.length_pos_of_mem ((mem_lanes m l).mpr hl)

theorem count_swizzle_le (m : WriteMask) : m.swizzle.count ≤ 4 := by
  have h := List.length_filter_le m.has (List.finRange 4)
  simpa [swizzle, lanes, Swizzle.count] using h

theorem nodup_swizzle (m : WriteMask) : m.swizzle.lanes.Nodup :=
  (List.nodup_finRange 4).filter _

end WriteMask

theorem Operand.has_mask (o : Operand) (l : Lane) : o.mask.has l = true ↔ l ∈ o.lanes.lanes :=
  WriteMask.has_ofSwizzle _ _

theorem Operand.mem_destination {o : Operand} {l : Lane} :
    l ∈ o.destination.mask.lanes ↔ l ∈ o.lanes.lanes :=
  (WriteMask.mem_lanes _ l).trans (o.has_mask l)

/-! ### Parts of operands -/

/-- The lanes of the place are lanes of the operand. -/
def Operand.Holds (o : Operand) (place : Place) (lanes : List Lane) : Prop :=
  place = o.place ∧ ∀ l ∈ lanes, l ∈ o.lanes.lanes

namespace Operand.Holds

variable {o x : Operand} {place : Place} {lanes : List Lane}

theorem refl (o : Operand) : o.Holds o.place o.lanes.lanes := ⟨rfl, fun _ hl => hl⟩

theorem trans (h : o.Holds x.place x.lanes.lanes) (hx : x.Holds place lanes) :
    o.Holds place lanes :=
  ⟨hx.1.trans h.1, fun l hl => h.2 l (hx.2 l hl)⟩

theorem picked {t : ValueType} {p : Swizzle} (ho : o.Fits t) (hp : p.maxLane < t.components) :
    o.Holds (o.picked p).place (o.picked p).lanes.lanes :=
  ⟨rfl, fun _ => mem_picked_lanes ho hp⟩

theorem destination (h : o.Holds x.place x.lanes.lanes) :
    o.Holds x.destination.place x.destination.mask.lanes :=
  ⟨h.1, fun l hl => h.2 l (mem_destination.mp hl)⟩

end Operand.Holds

end ShaderIL
