import ShaderIL.Proofs.Machine.Value

/-!
# What the lines of an overload leave behind

Two kinds of bodies. A line on whole operands acts on each component alone (`apply_component`), so
an overload of one such line computes component by component, from operands widened to the result
(`Overload.holds_of_whole`). Several lines into one register write its lanes independently of each
other (`Machine.run_lane`) if no line reads that register; then every component is what the one line
that covers it makes of the operands (`Overload.holds_of_parts`).
-/

namespace ShaderIL

/-! ### Components -/

/-- The mnemonic acts on each component of `w` words alone. -/
def Mnemonic.Lanewise (n : Mnemonic) (w : Nat) : Prop :=
  n.shape = .move ∨ (n.shape = .words ∧ w = 1) ∨ (n.shape = .pairs ∧ w = 2)

theorem map_eq_map_of_forall₂ {α β γ : Type} {R : α → β → Prop} {f : α → γ} {g : β → γ}
    (hR : ∀ a b, R a b → f a = g b) : ∀ {l : List α} {l' : List β},
      List.Forall₂ R l l' → l.map f = l'.map g
  | _, _, .nil => rfl
  | _, _, .cons h hs => by rw [List.map_cons, List.map_cons, hR _ _ h, map_eq_map_of_forall₂ hR hs]

namespace Machine

variable {m : Machine}

/-- At the positions of a component, such a mnemonic sees that component only. -/
theorem apply_component {n : Mnemonic} {w : Nat} (hn : n.Lanewise w) {ss : List (Nat → UInt32)}
    {xs : List Value} {c k j : Nat}
    (hs : List.Forall₂ (fun s x => ∀ p < c * w, s p = x (p / w) (p % w)) ss xs) (hk : k < c)
    (hj : j < w) : m.apply n ss (k * w + j) = m.apply n (xs.map fun x => x k) j := by
  have hlt : ∀ i < w, k * w + i < c * w := fun i hi => by
    calc k * w + i < k * w + w := by omega
      _ = (k + 1) * w := (Nat.succ_mul _ _).symm
      _ ≤ c * w := Nat.mul_le_mul_right _ hk
  have hword : ∀ (s : Nat → UInt32) (x : Value), (∀ p < c * w, s p = x (p / w) (p % w)) →
      ∀ i < w, s (k * w + i) = x k i := by
    intro s x h i hi
    rw [h _ (hlt i hi), Operand.mul_add_div_of_lt hi, Operand.mul_add_mod_of_lt hi]
  rcases hn with h | ⟨h, rfl⟩ | ⟨h, rfl⟩
  · simp only [apply, h]
    cases hs with
    | nil => rfl
    | cons hx _ => exact hword _ _ hx j hj
  · obtain rfl : j = 0 := by omega
    simp only [apply, h, List.map_map]
    congr 1
    exact map_eq_map_of_forall₂ (fun s x hx => hword s x hx 0 hj) hs
  · have hdiv : (k * 2 + j) / 2 = k := Operand.mul_add_div_of_lt hj k
    have hhalf : ∀ u, half (k * 2 + j) u = half j u := by
      intro u
      unfold half
      rw [show (k * 2 + j) % 2 = j % 2 by omega]
    simp only [apply, h, List.map_map, hdiv, hhalf, Nat.div_eq_of_lt hj, Nat.zero_mul]
    congr 2
    exact map_eq_map_of_forall₂ (fun s x hx => Prod.ext (hword s x hx 0 (by omega))
      (hword s x hx 1 (by omega))) hs

theorem apply_gathers {n : Mnemonic} {c : Nat} (hn : n.shape = .gathers c)
    {ss cs : List (Nat → UInt32)} (hs : List.Forall₂ (fun s d => ∀ p < c, s p = d p) ss cs)
    (p : Nat) : m.apply n ss p = m.apply n cs p := by
  simp only [apply, hn]
  congr 1
  refine map_eq_map_of_forall₂ (fun s d hsd => ?_) hs
  exact List.map_congr_left fun q hq => hsd q (List.mem_range.mp hq)

end Machine

/-! ### Lines on single components -/

/-- The mnemonic turns a component of `w` words into one of `w'` words. -/
def Mnemonic.Alone (n : Mnemonic) (w w' : Nat) : Prop :=
  (n.shape = .words ∧ w = 1 ∧ w' = 1) ∨ (n.shape = .narrows ∧ w = 2 ∧ w' = 1) ∨
    (n.shape = .widens ∧ w = 1 ∧ w' = 2)

namespace Machine

variable {m : Machine}

/-- At the lanes of any component, such a mnemonic gives what it makes of the components it is
given. -/
theorem apply_alone {n : Mnemonic} {w w' : Nat} (hn : n.Alone w w') {ss cs : List (Nat → UInt32)}
    (hs : List.Forall₂ (fun s c => ∀ p, s p = c (min p (w - 1))) ss cs) (k : Nat) {j : Nat}
    (hj : j < w') : m.apply n ss (k * w' + j) = m.apply n cs j := by
  rcases hn with ⟨h, rfl, rfl⟩ | ⟨h, rfl, rfl⟩ | ⟨h, rfl, rfl⟩
  · obtain rfl : j = 0 := by omega
    simp only [apply, h]
    congr 1
    exact map_eq_map_of_forall₂ (fun s c hc => by rw [hc, Nat.sub_self, Nat.min_zero]) hs
  · simp only [apply, h]
    cases hs with
    | nil => rfl
    | cons hc _ =>
      simp only [List.getD_cons_zero, hc]
      rfl
  · have hhalf : ∀ u, half (k * 2 + j) u = half j u := by
      intro u
      unfold half
      rw [show (k * 2 + j) % 2 = j % 2 by omega]
    simp only [apply, h, hhalf]
    cases hs with
    | nil => rfl
    | cons hc _ =>
      simp only [List.getD_cons_zero, hc]
      rfl

theorem agree_step {k r : Nat} {i : Instruction} (hi : i.dst.place = .temp r) (hr : k ≤ r)
    (σ : Contents) : Contents.Agree k σ (m.step σ i) := by
  have hone : ∀ j ∈ [i], ∃ q, j.dst.place = .temp q ∧ k ≤ q := by simpa using ⟨r, hi, hr⟩
  exact .of_run hone σ

theorem run_lane_of_settled {k r : Nat} {l : Lane} {i : Instruction} (hr : k ≤ r) :
    ∀ {is : List Instruction} {σ : Contents}, (∀ j ∈ is, j.dst.place = .temp r) →
      (∀ j ∈ is, ∀ s ∈ j.srcs, s.place.Settled k) → i ∈ is → i.dst.mask.has l = true →
      (∀ j ∈ is, j.dst.mask.has l = true → j = i) →
      m.run σ is (.register (.temp r)) l = m.apply i.mnemonic (i.srcs.map (m.supply σ)) l.val
  | [], _, _, _, hi, _, _ => absurd hi List.not_mem_nil
  | j :: js, σ, hdst, hsrc, hi, hl, honly => by
    by_cases hjs : i ∈ js
    · have hσ : Contents.Agree k σ (m.step σ j) := agree_step (hdst j (by simp)) hr σ
      have hsupply : ∀ s ∈ i.srcs, m.supply (m.step σ j) s = m.supply σ s := fun s hs =>
        supply_agree (hsrc i (by simp [hjs]) s hs) hσ
      rw [run_cons, run_lane_of_settled hr (fun y hy => hdst y (by simp [hy]))
        (fun y hy => hsrc y (by simp [hy])) hjs hl fun y hy => honly y (by simp [hy]),
        List.map_congr_left hsupply]
    · -- the lines after `i` leave the lane alone
      obtain rfl : i = j := (List.mem_cons.mp hi).resolve_right hjs
      have hrest : ∀ y ∈ js, ∃ q, y.dst.place = .temp q ∧
          (Cell.register (.temp r) ≠ .register (.temp q) ∨ y.dst.mask.has l = false) := by
        intro y hy
        refine ⟨r, hdst y (by simp [hy]), .inr ?_⟩
        by_contra hne
        exact hjs (honly y (by simp [hy]) (by simpa using hne) ▸ hy)
      rw [run_cons, run_apart hrest, step, if_pos ⟨by rw [hdst i (by simp), cell_temp], hl⟩]

/-- A lane that one of several lines writes gets what this line makes of the sources as they were
before all lines. The lines share a register that none of them reads, unless there is only one. -/
theorem run_lane {k r : Nat} {l : Lane} {i : Instruction} {is : List Instruction} {σ : Contents}
    (hdst : ∀ j ∈ is, j.dst.place = .temp r)
    (hsrc : is.length = 1 ∨ k ≤ r ∧ ∀ j ∈ is, ∀ s ∈ j.srcs, s.place.Settled k) (hi : i ∈ is)
    (hl : i.dst.mask.has l = true) (honly : ∀ j ∈ is, j.dst.mask.has l = true → j = i) :
    m.run σ is (.register (.temp r)) l = m.apply i.mnemonic (i.srcs.map (m.supply σ)) l.val := by
  rcases hsrc with hone | ⟨hr, hsrc⟩
  · obtain ⟨j, rfl⟩ := List.length_eq_one_iff.mp hone
    obtain rfl := List.mem_singleton.mp hi
    rw [run_cons, run_nil, step, if_pos ⟨by rw [hdst i hi, cell_temp], hl⟩]
  · exact run_lane_of_settled hr hdst hsrc hi hl honly

end Machine

/-! ### Widened operands -/

theorem Overload.widenedType_eq {f : Overload} {t : ValueType}
    (h : t.components = f.result.components ∨
      (f.splat = true ∧ t.components = 1 ∧ 0 < f.result.components)) :
    f.widenedType t = ⟨t.kind, f.result.components⟩ := by
  obtain ⟨kind, components⟩ := t
  simp only [widenedType, widens, Bool.and_eq_true, beq_iff_eq, decide_eq_true_eq] at h ⊢
  split_ifs with hw
  · rfl
  · rcases h with rfl | ⟨hs, rfl, hr⟩
    · rfl
    · simp only [hs, true_and, Nat.not_lt] at hw
      rw [show f.result.components = 1 by omega]

namespace Contents.Carries

variable {m : Machine} {σ : Contents} {n : Nat} {f : Overload} {o : Operand} {t : ValueType}
  {x : Value}

theorem broadcast (h : σ.Carries n o t x) (ht : t.valid = true) (c : Nat) :
    σ.Carries n (o.picked (.broadcast .x c)) ⟨t.kind, c⟩ fun _ => x 0 := by
  have hp := h.picked (Swizzle.maxLane_broadcast (ValueType.components_pos ht) (c := c))
  have hcount : (Swizzle.broadcast .x c).count = c := by simp [Swizzle.count, Swizzle.broadcast]
  rw [hcount] at hp
  refine ⟨hp.fits, hp.holds.congr fun k hk j hj => ?_, hp.settled⟩
  have hk : k < c := hk
  have hx : (Swizzle.broadcast .x c).lanes.getD k .x = .x := by
    simp [hk, Swizzle.broadcast, List.getD_eq_getElem?_getD]
  rw [hx]
  rfl

theorem widened (h : σ.Carries n o t x) (ht : t.valid = true) :
    σ.Carries n (f.widenedOperand t o) (f.widenedType t) (x.spread t) := by
  unfold Overload.widenedOperand Overload.widenedType
  split_ifs with hw
  · simp only [Overload.widens, Bool.and_eq_true, beq_iff_eq] at hw
    have hb := h.broadcast ht f.result.components
    refine ⟨hb.fits, hb.holds.congr fun k _ j _ => ?_, hb.settled⟩
    rw [Value.spread, if_pos hw.2.1]
  · refine ⟨h.fits, h.holds.congr fun k hk j hj => ?_, h.settled⟩
    rw [Value.spread_of_lt hk]

theorem supplies_widened {c : Nat} (h : σ.Carries n o t x) (ht : t.valid = true)
    (hwide : f.widenedType t = ⟨t.kind, c⟩) (hvalid : (⟨t.kind, c⟩ : ValueType).valid = true)
    (sign : Sign) (hsign : sign = .highNegated → t.laneWidth = 2) :
    m.Supplies σ c t.laneWidth ((f.widenedOperand t o).signed sign)
      fun k => m.signed (x.spread t k) sign := by
  have hw := h.widened (f := f) ht
  rw [hwide] at hw
  exact hw.supplies_signed hvalid sign hsign

end Contents.Carries

/-! ### Shapes of mnemonics -/

theorem Mnemonic.lanewise_numeric {float double int uint mn : Mnemonic} {t : ValueType}
    (hf : float.shape = .words) (hd : double.shape = .pairs) (hi : int.shape = .words)
    (hu : uint.shape = .words) (h : numeric float double int uint t.kind = some mn) :
    mn.Lanewise t.laneWidth := by
  obtain ⟨kind, components⟩ := t
  cases kind <;> cases h
  · exact .inr (.inl ⟨hi, rfl⟩)
  · exact .inr (.inl ⟨hu, rfl⟩)
  · exact .inr (.inl ⟨hf, rfl⟩)
  · exact .inr (.inr ⟨hd, rfl⟩)

theorem Mnemonic.lanewise_equality {float double other mn : Mnemonic} {t : ValueType}
    (hf : float.shape = .words) (hd : double.shape = .pairs) (ho : other.shape = .words)
    (h : equality float double other t.kind = some mn) : mn.Lanewise t.laneWidth := by
  obtain ⟨kind, components⟩ := t
  cases kind <;> cases h
  · exact .inr (.inl ⟨ho, rfl⟩)
  · exact .inr (.inl ⟨ho, rfl⟩)
  · exact .inr (.inl ⟨hf, rfl⟩)
  · exact .inr (.inr ⟨hd, rfl⟩)
  · exact .inr (.inl ⟨ho, rfl⟩)

theorem Mnemonic.lanewise_bitwise {mn mn' : Mnemonic} {t : ValueType} (hm : mn.shape = .words)
    (h : bitwise mn t.kind = some mn') : mn'.Lanewise t.laneWidth := by
  obtain ⟨kind, components⟩ := t
  cases kind <;> cases h
  all_goals exact .inr (.inl ⟨hm, rfl⟩)

theorem ValueType.laneWidth_of_integer {t : ValueType} (h : t.kind.isInteger = true) :
    t.laneWidth = 1 := by
  refine laneWidth_eq_one fun hd => ?_
  simp [hd, Kind.isInteger] at h

/-! ### Lines on whole operands -/

namespace Machine

variable {m : Machine} {σ : Contents} {t : ValueType} {r : Nat} {n : Mnemonic} {w : Nat}
  {srcs : List SourceOperand} {xs : List Value}

/-- A line that acts on each component alone. The destination has components of as many words as the
sources, or is a single lane. -/
theorem step_componentwise (ht : t.valid = true) (hn : n.Lanewise w)
    (hw : t.laneWidth = w ∨ t.lanes = 1 ∧ 0 < w)
    (hs : List.Forall₂ (m.Supplies σ t.components w) srcs xs) :
    (m.step σ ⟨n, (Operand.ofType (.temp r) t).destination, srcs⟩).Holds
      (Operand.ofType (.temp r) t) t fun k => m.apply n (xs.map fun x => x k) := by
  refine step_holds (Operand.ofType_fits _ ht) rfl fun k hk j hj => ?_
  rw [Operand.val_getD_ofType _ ht (ValueType.lane_lt hk hj)]
  have hss : List.Forall₂ (fun s x => ∀ p < t.components * w, s p = x (p / w) (p % w))
      (srcs.map (m.supply σ)) xs := List.forall₂_map_left_iff.mpr hs
  rcases hw with rfl | ⟨hone, hw⟩
  · exact apply_component hn hss hk hj
  · have hlane := ValueType.lane_lt hk hj
    have hpos := t.laneWidth_pos
    have hk0 : k = 0 := by
      by_contra hne
      have hle : 1 * t.laneWidth ≤ k * t.laneWidth := Nat.mul_le_mul_right _ (by omega)
      omega
    subst hk0
    have hj0 : j = 0 := by omega
    subst hj0
    have happ := apply_component (m := m) hn hss hk hw
    rwa [Nat.zero_mul] at happ ⊢

theorem step_scratch {k : Nat} (hr : k ≤ r) (ht : t.valid = true) (hn : n.Lanewise t.laneWidth)
    (hs : List.Forall₂ (m.Supplies σ t.components t.laneWidth) srcs xs) :
    Contents.Agree k σ (m.step σ ⟨n, (Operand.ofType (.temp r) t).destination, srcs⟩) ∧
      (m.step σ ⟨n, (Operand.ofType (.temp r) t).destination, srcs⟩).Carries (r + 1)
        (Operand.ofType (.temp r) t) t fun k => m.apply n (xs.map fun x => x k) :=
  ⟨agree_step rfl hr σ, Operand.ofType_fits _ ht, step_componentwise ht hn (.inl rfl) hs,
    Nat.lt_succ_self r⟩

end Machine

namespace Overload

variable {m : Machine} {σ : Contents} {f : Overload} {n r start : Nat} {a b c : ValueType}
  {A B C : Operand} {x y z : Value}

theorem lines_of_body {p : Pattern} (hbody : f.body = [p]) (dst : Operand) (args : List Operand)
    (start : Nat) : f.lines dst args start =
      [p.filled ⟨dst, f.widened args, Draft.registersFrom f.result start f.scratch⟩] := by
  simp [lines, hbody]

theorem widened_of_not_splat {args : List Operand} {xs : List Value} (hsplat : f.splat = false)
    (hargs : σ.CarriesAll n args f.args xs) : f.widened args = args :=
  zipWith_widenedOperand_of_not_splat hsplat hargs.fits

/-- What a whole operand of the overload supplies after widening. -/
theorem supplies_whole {w i : Nat} {t : ValueType} {sign : Sign} {xs : List Value}
    {args scratch : List Operand} {dst dst' : Operand} (hf : f.Sound)
    (hargs : σ.CarriesAll n args f.args xs)
    (hwide : ∀ t ∈ f.args, t.laneWidth = w ∧
      (t.components = f.result.components ∨ f.splat = true ∧ t.components = 1))
    (ht : f.args[i]? = some t) (hx : xs[i]? = some x) (hsign : sign = .highNegated → w = 2) :
    m.Supplies σ f.result.components w
      (Operands.sourceOperand ⟨dst, f.widened args, scratch⟩ dst' (.whole (.source i) sign))
      fun k => m.signed (x.spread t k) sign := by
  obtain ⟨o, x', ho, hx', hcarries⟩ := hargs.get ht
  obtain rfl : x' = x := Option.some.inj (hx'.symm.trans hx)
  have hmem := List.mem_of_getElem? ht
  obtain ⟨rfl, hcomp⟩ := hwide t hmem
  have htype : f.widenedType t = ⟨t.kind, f.result.components⟩ := by
    refine widenedType_eq ?_
    rcases hcomp with hcomp | ⟨hsplat, hone⟩
    · exact .inl hcomp
    · exact .inr ⟨hsplat, hone, ValueType.components_pos hf.result_valid⟩
  obtain ⟨htv, hwv⟩ := hf.args_valid t hmem
  rw [htype] at hwv
  simp only [Operands.sourceOperand, slot_widened ht ho]
  exact hcarries.supplies_widened htv htype hwv sign hsign

/-- An overload of one line on whole operands acts on each component alone. -/
theorem holds_of_whole {mn : Mnemonic} {srcs : List (Nat × Sign)} {w : Nat} {xs : List Value}
    {args : List Operand} (hf : f.Sound)
    (hbody : f.body = [⟨mn, .result, srcs.map fun q => .whole (.source q.1) q.2⟩])
    (hn : mn.Lanewise w) (hw : f.result.laneWidth = w ∨ f.result.lanes = 1 ∧ 0 < w)
    (hargs : σ.CarriesAll n args f.args xs)
    (hwide : ∀ t ∈ f.args, t.laneWidth = w ∧
      (t.components = f.result.components ∨ f.splat = true ∧ t.components = 1))
    (hsrcs : ∀ q ∈ srcs, q.1 < f.args.length ∧ (q.2 = .highNegated → w = 2)) :
    (m.run σ (f.lines (.ofType (.temp r) f.result) args start)).Holds
      (.ofType (.temp r) f.result) f.result fun k => m.apply mn (srcs.map fun q =>
        m.signed ((xs.getD q.1 fun _ _ => 0).spread (f.args.getD q.1 .invalid) k) q.2) := by
  have hs : List.Forall₂ (m.Supplies σ f.result.components w)
      (srcs.map fun q => Operands.sourceOperand ⟨.ofType (.temp r) f.result, f.widened args,
        Draft.registersFrom f.result start f.scratch⟩ (.ofType (.temp r) f.result)
          (.whole (.source q.1) q.2))
      (srcs.map fun (q : Nat × Sign) (k : Nat) =>
        m.signed ((xs.getD q.1 fun _ _ => 0).spread (f.args.getD q.1 .invalid) k) q.2) := by
    rw [List.forall₂_map_left_iff, List.forall₂_map_right_iff, List.forall₂_same]
    intro q hq
    obtain ⟨hi, hsign⟩ := hsrcs q hq
    have ht := List.getElem?_eq_getElem hi
    obtain ⟨o, x, -, hx, -⟩ := hargs.get ht
    simp only [List.getD_eq_getElem?_getD, ht, hx, Option.getD_some]
    exact supplies_whole hf hargs hwide ht hx hsign
  have hline := Machine.step_componentwise (r := r) hf.result_valid hn hw hs
  rw [lines_of_body hbody]
  simpa only [Pattern.filled, Operands.targetOperand, List.map_map, Function.comp_def,
    Machine.run_cons, Machine.run_nil] using hline

/-! ### Bodies of several lines into one register -/

/-- The sources of a line that reads operands only lie in settled places. -/
theorem source_settled {args scratch : List Operand} {xs : List Value} {dst dst' : Operand}
    (hf : f.Sound) (hargs : σ.CarriesAll n args f.args xs) {p : Pattern} (hp : p ∈ f.body)
    {s : PatternSource} (hs : s ∈ p.sources) {i : Nat} (hi : s.slot = .source i) :
    (Operands.sourceOperand ⟨dst, f.widened args, scratch⟩ dst' s).place.Settled n := by
  obtain ⟨t, ht, -⟩ := hf.source_legal p hp s hs
  rw [hi, slotType, Option.map_eq_some_iff] at ht
  obtain ⟨a, ha, -⟩ := ht
  obtain ⟨o, x, ho, -, hcarries⟩ := hargs.get ha
  have hplace : (Operands.sourceOperand ⟨dst, f.widened args, scratch⟩ dst' s).place = o.place := by
    have hslot : (Operands.slot ⟨dst, f.widened args, scratch⟩ s.slot).place = o.place := by
      rw [hi, slot_widened ha ho]
      unfold widenedOperand
      split_ifs <;> rfl
    cases s <;> exact hslot
  rw [hplace]
  exact hcarries.settled

/-- Lines that share the result between them: each component is written by one line, from the
operands. -/
theorem holds_of_parts {args : List Operand} {xs : List Value} {v : Value} (hf : f.Sound)
    (hargs : σ.CarriesAll n args f.args xs) (hdst : f.single = true ∨ n ≤ r)
    (htarget : ∀ p ∈ f.body, p.target.scratch? = none)
    (hsource : ∀ p ∈ f.body, ∀ s ∈ p.sources, ∃ i, s.slot = .source i)
    (hpart : ∀ k < f.result.components, ∃ p ∈ f.body, p.target.Covers k ∧
      (∀ q ∈ f.body, q.target.Covers k → q = p) ∧ ∀ j < f.result.laneWidth,
        m.apply p.mnemonic ((p.filled ⟨.ofType (.temp r) f.result, f.widened args,
          Draft.registersFrom f.result start f.scratch⟩).srcs.map (m.supply σ))
            (k * f.result.laneWidth + j) = v k j) :
    (m.run σ (f.lines (.ofType (.temp r) f.result) args start)).Holds
      (.ofType (.temp r) f.result) f.result v := by
  intro k hk j hj
  obtain ⟨p, hp, hcovers, honly, hvalue⟩ := hpart k hk
  have hlane := ValueType.lane_lt hk hj
  have hval := Operand.val_getD_ofType (.temp r) hf.result_valid hlane
  generalize (Operand.ofType (.temp r) f.result).lanes.lanes.getD
    (k * f.result.laneWidth + j) .x = l at hval ⊢
  have hhas : ∀ q ∈ f.body, ((q.filled ⟨.ofType (.temp r) f.result, f.widened args,
      Draft.registersFrom f.result start f.scratch⟩).dst.mask.has l = true ↔
        q.target.Covers k) := by
    intro q hq
    have h := has_targetOperand (o := ⟨.ofType (.temp r) f.result, f.widened args,
      Draft.registersFrom f.result start f.scratch⟩) hf rfl (hf.target_legal q hq) (htarget q hq)
      (hval ▸ hlane)
    rwa [hval, Operand.mul_add_div_of_lt hj] at h
  rw [← hvalue j hj, ← hval]
  refine Machine.run_lane (k := n) ?_ ?_ (List.mem_map_of_mem hp) ((hhas p hp).mpr hcovers) ?_
  · simp only [List.forall_mem_map]
    exact fun q hq => Operands.targetOperand_place (htarget q hq)
  · rcases hdst with hdst | hdst
    · exact .inl (by simpa [lines] using hf.single_iff.mp hdst)
    · refine .inr ⟨hdst, ?_⟩
      simp only [List.forall_mem_map]
      intro q hq s hs
      obtain ⟨s', hs', rfl⟩ := List.mem_map.mp hs
      obtain ⟨i, hi⟩ := hsource q hq s' hs'
      exact source_settled hf hargs hq hs' hi
  · simp only [List.forall_mem_map]
    intro q hq hl
    rw [honly q hq ((hhas q hq).mp hl)]

/-- A line that moves an operand to a span of the result. -/
theorem supply_span {t u : ValueType} {o dst : Operand} {v : Value} {i j k : Nat}
    (ht : t.valid = true) (hu : u.valid = true) (hw : u.laneWidth = t.laneWidth)
    (hspan : i + u.components ≤ t.components) (ho : σ.Carries n o u v)
    (hdst : dst = (Operand.ofType (.temp r) t).picked
      ⟨(List.range u.components).map fun q => .ofIndex (i + q)⟩)
    (hk : k < u.components) (hj : j < t.laneWidth) :
    m.supply σ (o.alignedTo dst) ((i + k) * t.laneWidth + j) = v k j := by
  subst hdst
  have h4 := ValueType.components_le_four ht
  have hmax := Swizzle.maxLane_span hspan (ValueType.components_pos ht) h4
  have hcount : (⟨(List.range u.components).map fun q => Lane.ofIndex (i + q)⟩ : Swizzle).count =
      u.components := by simp [Swizzle.count]
  have hnodup : ((List.range u.components).map fun q => Lane.ofIndex (i + q)).Nodup := by
    refine List.Nodup.map_on (fun p hp q hq hpq => ?_) List.nodup_range
    rw [List.mem_range] at hp hq
    have hval := congrArg Fin.val hpq
    rw [Lane.val_ofIndex (by omega), Lane.val_ofIndex (by omega)] at hval
    omega
  have hlane := Operand.val_getD_picked_ofType (.temp r) ht hmax (hcount ▸ hk) hj
  have hget : ((List.range u.components).map fun q => Lane.ofIndex (i + q)).getD k .x =
      Lane.ofIndex (i + k) := by
    simp [hk]
  rw [hget, Lane.val_ofIndex (by omega)] at hlane
  rw [← hlane]
  have hdst := (Operand.count_picked (.ofType (.temp r) t) _).trans
    (congrArg (· * t.laneWidth) hcount)
  rw [← hw] at hdst hj ⊢
  rw [ho.supply_aligned hdst hu (Operand.nodup_picked_ofType (.temp r) ht hmax hnodup)
    (ValueType.lane_lt hk hj), Operand.mul_add_div_of_lt hj, Operand.mul_add_mod_of_lt hj]

end Overload

end ShaderIL
