import ShaderIL.Proofs.Operation.Contract

/-!
# Every overload of the table keeps the contract

One lemma per family of overloads: bodies of one line on whole operands (`Sound.of_whole`), bodies
of one line per component (`Sound.of_perComponent`), the two bodies with a scratch register, and
merging. `UnaryOp.sound`, `Conversion.sound`, `BinaryOp.sound` and `TernaryOp.sound` put them
together: whatever the table holds is a sound overload of the operand types it was asked for.
-/

namespace ShaderIL

theorem ValueType.valid_of_standard {t : ValueType} (h : t.standard = true) : t.valid = true := by
  simp only [standard, Bool.and_eq_true] at h
  exact h.1

/-- Another kind of one lane per component is valid at any valid width. -/
theorem ValueType.valid_of_components {t : ValueType} (h : t.valid = true) {k : Kind}
    (hk : k ≠ .invalid) (hd : k ≠ .double) : (⟨k, t.components⟩ : ValueType).valid = true := by
  obtain ⟨-, hc⟩ := t.valid_iff.mp h
  refine (valid_iff _).mpr ⟨hk, ?_⟩
  rcases hc with hc | hc | hc
  · exact .inl hc
  · exact .inr (.inl hc)
  · exact .inr (.inr ⟨hc.1, hd⟩)

/-- The common type of two operands is one of them, and the other has its width or is scalar. -/
theorem ValueType.widen_spec {a b r : ValueType} (h : a.widen b = some r) :
    a.kind = r.kind ∧ b.kind = r.kind ∧ (r = a ∨ r = b) ∧
      (a.components = 1 ∨ a.components = r.components) ∧
      (b.components = 1 ∨ b.components = r.components) := by
  unfold widen at h
  split_ifs at h with hk h1 h2 h3 <;> simp only [bne_iff_ne, ne_eq, not_not, beq_iff_eq] at * <;>
    cases h
  · exact ⟨rfl, hk.symm, .inl rfl, .inr rfl, .inr h1.symm⟩
  · exact ⟨hk, rfl, .inr rfl, .inl h2, .inr rfl⟩
  · exact ⟨rfl, hk.symm, .inl rfl, .inr rfl, .inl h3⟩

theorem ValueType.widen_valid {a b r : ValueType} (h : a.widen b = some r) (ha : a.valid = true)
    (hb : b.valid = true) : r.valid = true := by
  obtain ⟨-, -, rfl | rfl, -, -⟩ := widen_spec h
  · exact ha
  · exact hb

namespace Overload

variable {f : Overload} {a b c r t : ValueType}

/-! ### Widened operands -/

theorem widenedType_of_not_splat (h : f.splat = false) (t : ValueType) : f.widenedType t = t := by
  simp [widenedType, widens, h]

theorem widenedType_valid (hr : f.result.valid = true) (ht : t.valid = true)
    (hk : t.kind = f.result.kind ∨ t.kind ≠ .double) : (f.widenedType t).valid = true := by
  unfold widenedType
  split_ifs with hw
  · rcases hk with hk | hk
    · rw [hk]
      exact hr
    · exact ValueType.valid_of_components hr (t.valid_iff.mp ht).1 hk
  · exact ht

/-- The operands of a widening overload of two operands of the result's kind. -/
theorem args_valid_of_widen (hargs : f.args = [a, b])
    (hw : a.widen b = some f.result) (ha : a.valid = true) (hb : b.valid = true) :
    ∀ t ∈ f.args, t.valid = true ∧ (f.widenedType t).valid = true := by
  obtain ⟨hka, hkb, -⟩ := ValueType.widen_spec hw
  have hr := ValueType.widen_valid hw ha hb
  simp only [hargs, List.mem_cons, List.not_mem_nil, or_false, forall_eq_or_imp, forall_eq]
  exact ⟨⟨ha, widenedType_valid hr ha (.inl hka)⟩, hb, widenedType_valid hr hb (.inl hkb)⟩

/-! ### Bodies of one line -/

/-- The sources are whole operands of the overload. -/
def Wholes (n : Nat) (srcs : List PatternSource) : Prop :=
  ∀ s ∈ srcs, ∃ i sign, s = .whole (.source i) sign ∧ i < n

theorem wholes_range (n : Nat) :
    Wholes n ((List.range n).map fun i => .whole (.source i) .plain) := by
  intro s hs
  simp only [List.mem_map, List.mem_range] at hs
  obtain ⟨i, hi, rfl⟩ := hs
  exact ⟨i, .plain, rfl, hi⟩

theorem Sound.of_whole {m : Mnemonic} {srcs : List PatternSource} (hr : f.result.valid = true)
    (hargs : ∀ t ∈ f.args, t.valid = true ∧ (f.widenedType t).valid = true)
    (hbody : f.body = [⟨m, .result, srcs⟩]) (hsrcs : Wholes f.args.length srcs)
    (hsingle : f.single = true) (hscratch : f.scratch = 0) : f.Sound where
  result_valid := hr
  args_valid := hargs
  target_legal := by simp [hbody, PatternTarget.Legal]
  source_legal := by
    intro p hp s hs
    simp only [hbody, List.mem_singleton] at hp
    subst hp
    obtain ⟨i, sign, rfl, hi⟩ := hsrcs s hs
    exact ⟨f.widenedType f.args[i], by simp [PatternSource.slot, slotType, hi], trivial⟩
  ready := by
    rw [hbody]
    refine ⟨fun s hs i hi => ?_, trivial⟩
    obtain ⟨j, sign, rfl, -⟩ := hsrcs s hs
    cases hi
  covers := fun c _ => ⟨⟨m, .result, srcs⟩, by simp [hbody], trivial⟩
  single_iff := by simp [hbody, hsingle]
  scratch_of_single := fun _ => hscratch

theorem lanewise_sound {op : BinaryOp} {table : Kind → Option Mnemonic} (ha : a.valid = true)
    (hb : b.valid = true) (h : lanewise op table a b = some f) : f.Sound ∧ f.args = [a, b] := by
  simp only [lanewise, Option.bind_eq_bind, Option.bind_eq_some_iff] at h
  obtain ⟨r, hw, m, hm, h⟩ := h
  cases h
  exact ⟨.of_whole (ValueType.widen_valid hw ha hb) (args_valid_of_widen rfl hw ha hb) rfl
    (wholes_range 2) rfl rfl, rfl⟩

theorem multiplyAdd_sound (ha : a.valid = true) (hb : b.valid = true) (hc : c.valid = true)
    (h : multiplyAdd a b c = some f) : f.Sound ∧ f.args = [a, b, c] := by
  simp only [multiplyAdd, Option.bind_eq_bind, Option.bind_eq_some_iff] at h
  obtain ⟨q, hq, r, hw, m, hm, h⟩ := h
  cases h
  obtain ⟨hka, hkb, -⟩ := ValueType.widen_spec hq
  obtain ⟨hkq, hkc, -⟩ := ValueType.widen_spec hw
  have hr := ValueType.widen_valid hw (ValueType.widen_valid hq ha hb) hc
  refine ⟨.of_whole hr ?_ rfl (wholes_range 3) rfl rfl, rfl⟩
  simp only [List.mem_cons, List.not_mem_nil, or_false, forall_eq_or_imp, forall_eq]
  exact ⟨⟨ha, widenedType_valid hr ha (.inl (hka.trans hkq))⟩,
    ⟨hb, widenedType_valid hr hb (.inl (hkb.trans hkq))⟩, hc, widenedType_valid hr hc (.inl hkc)⟩

theorem choice_sound (ha : a.valid = true) (hb : b.valid = true) (hc : c.valid = true)
    (h : choice a b c = some f) : f.Sound ∧ f.args = [a, b, c] := by
  simp only [choice, Option.bind_eq_bind, Option.bind_eq_some_iff] at h
  obtain ⟨r, hw, h⟩ := h
  split_ifs at h with hcond
  cases h
  simp only [Bool.and_eq_true, beq_iff_eq] at hcond
  obtain ⟨hkb, hkc, -⟩ := ValueType.widen_spec hw
  have hr := ValueType.widen_valid hw hb hc
  refine ⟨.of_whole hr ?_ rfl (wholes_range 3) rfl rfl, rfl⟩
  simp only [List.mem_cons, List.not_mem_nil, or_false, forall_eq_or_imp, forall_eq]
  exact ⟨⟨ha, widenedType_valid hr ha (.inr (by simp [hcond.1.1]))⟩,
    ⟨hb, widenedType_valid hr hb (.inl hkb)⟩, hc, widenedType_valid hr hc (.inl hkc)⟩

theorem shift_sound {op : BinaryOp} {signed unsigned : Mnemonic} (ha : a.valid = true)
    (hb : b.valid = true) (h : shift op signed unsigned a b = some f) :
    f.Sound ∧ f.args = [a, b] := by
  simp only [shift] at h
  split at h
  · rename_i m hm
    split_ifs at h with hcond
    cases h
    simp only [Bool.and_eq_true] at hcond
    have hkb : b.kind ≠ .double := by
      intro hd
      simp [hd, Kind.isInteger] at hcond
    refine ⟨.of_whole ha ?_ rfl (wholes_range 2) rfl rfl, rfl⟩
    simp only [List.mem_cons, List.not_mem_nil, or_false, forall_eq_or_imp, forall_eq]
    exact ⟨⟨ha, widenedType_valid ha ha (.inl rfl)⟩, hb, widenedType_valid ha hb (.inr hkb)⟩
  · cases h

theorem Sound.of_plain {m : Mnemonic} {srcs : List PatternSource} (hr : f.result.valid = true)
    (hargs : ∀ t ∈ f.args, t.valid = true) (hsplat : f.splat = false)
    (hbody : f.body = [⟨m, .result, srcs⟩]) (hsrcs : Wholes f.args.length srcs)
    (hsingle : f.single = true) (hscratch : f.scratch = 0) : f.Sound := by
  refine .of_whole hr (fun t ht => ⟨hargs t ht, ?_⟩) hbody hsrcs hsingle hscratch
  rw [widenedType_of_not_splat hsplat]
  exact hargs t ht

theorem unaryDirect_sound {op : Opcode} {m : Mnemonic} (ha : a.valid = true)
    (hr : r.valid = true) : (unaryDirect op a r m).Sound :=
  .of_plain hr (by simp [unaryDirect, ha]) rfl rfl (wholes_range 1) rfl rfl

theorem compare_sound {op : BinaryOp} {table : Kind → Option Mnemonic} {swap : Bool}
    (ha : a.valid = true) (hb : b.valid = true) (h : compare op table swap a b = some f) :
    f.Sound ∧ f.args = [a, b] := by
  simp only [compare, Option.bind_eq_bind, Option.bind_eq_some_iff] at h
  obtain ⟨t, hw, m, hm, h⟩ := h
  split_ifs at h with hd hswap
  all_goals
    cases h
    have ht := ValueType.widen_valid hw ha hb
    obtain ⟨hka, hkb, -, hca, hcb⟩ := ValueType.widen_spec hw
    have hbool : (⟨.bool, t.components⟩ : ValueType).valid = true :=
      ValueType.valid_of_components ht (by decide) (by decide)
    have hr : t.withKind .bool = ⟨.bool, t.components⟩ := ValueType.vector_eq hbool
    -- doubles are compared one at a time, so only operands of single lanes are widened
    have hwide : ∀ u : ValueType, u.valid = true → u.kind = t.kind →
        (u.components = 1 ∨ u.components = t.components) → u.kind ≠ .double ∨
          ¬ 1 < t.components := by
      intro u _ hk _
      simp only [Bool.and_eq_true, beq_iff_eq, bne_iff_ne, ne_eq, not_and, not_not] at hd
      by_cases hdt : t.kind = .double
      · right
        rw [hd hdt]
        omega
      · left
        rw [hk]
        exact hdt
    refine ⟨.of_whole (m := m) (by rw [hr]; exact hbool) ?_ rfl ?_ rfl rfl, rfl⟩
    · simp only [List.mem_cons, List.not_mem_nil, or_false, forall_eq_or_imp, forall_eq, hr,
        widenedType, widens]
      refine ⟨⟨ha, ?_⟩, hb, ?_⟩
      · split_ifs with hwa
        · rcases hwide a ha hka hca with hk | hk
          · exact ValueType.valid_of_components ht (a.valid_iff.mp ha).1 hk
          · simp [hk] at hwa
        · exact ha
      · split_ifs with hwb
        · rcases hwide b hb hkb hcb with hk | hk
          · exact ValueType.valid_of_components ht (b.valid_iff.mp hb).1 hk
          · simp [hk] at hwb
        · exact hb
    · intro s hs
      simp only [List.mem_cons, List.not_mem_nil, or_false] at hs
      rcases hs with rfl | rfl
      · exact ⟨_, _, rfl, by simp⟩
      · exact ⟨_, _, rfl, by simp⟩

theorem negation_sound (ha : a.valid = true) (h : negation a = some f) :
    f.Sound ∧ f.args = [a] := by
  have hsrcs : ∀ sign : Sign, Wholes 1 [.whole (.source 0) sign] := fun sign s hs =>
    ⟨0, sign, List.mem_singleton.mp hs, by omega⟩
  simp only [negation] at h
  split at h <;> cases h
  · exact ⟨.of_plain ha (by simp [ha]) rfl rfl (hsrcs .negated) rfl rfl, rfl⟩
  · exact ⟨.of_plain ha (by simp [ha]) rfl rfl (hsrcs .highNegated) rfl rfl, rfl⟩
  · exact ⟨unaryDirect_sound ha ha, rfl⟩

theorem floatOnly_sound {op : UnaryOp} {m : Mnemonic} (ha : a.valid = true)
    (h : floatOnly op m a = some f) : f.Sound ∧ f.args = [a] := by
  simp only [floatOnly] at h
  split_ifs at h
  cases h
  exact ⟨unaryDirect_sound ha ha, rfl⟩

theorem dot_sound (ha : a.valid = true) (hb : b.valid = true) (h : dot a b = some f) :
    f.Sound ∧ f.args = [a, b] := by
  simp only [dot] at h
  split_ifs at h
  split at h <;> cases h
  all_goals
    exact ⟨.of_plain (show ValueType.float1.valid = true by decide) (by simp [ha, hb]) rfl rfl
      (wholes_range 2) rfl rfl, rfl⟩

theorem bitInsert_sound (ha : a.valid = true) (hb : b.valid = true) (hc : c.valid = true)
    (h : bitInsert a b c = some f) : f.Sound ∧ f.args = [a, b, c] := by
  simp only [bitInsert] at h
  split_ifs at h
  cases h
  exact ⟨.of_plain ha (by simp [ha, hb, hc]) rfl rfl (wholes_range 3) rfl rfl, rfl⟩

theorem bitExtract_sound (ha : a.valid = true) (hb : b.valid = true) (hc : c.valid = true)
    (h : bitExtract a b c = some f) : f.Sound ∧ f.args = [a, b, c] := by
  simp only [bitExtract] at h
  split_ifs at h
  split at h <;> cases h
  all_goals
    exact ⟨.of_plain ha (by simp [ha, hb, hc]) rfl rfl (wholes_range 3) rfl rfl, rfl⟩

/-! ### Bodies of one line per component -/

theorem Sound.of_perComponent {m : Mnemonic} {n : Nat} (hr : f.result.valid = true)
    (hargs : ∀ t ∈ f.args, t.valid = true ∧ t.components = f.result.components)
    (hsplat : f.splat = false) (hn : n = f.args.length)
    (hbody : f.body = (List.range f.result.components).map fun i => .perComponent m n i)
    (hsingle : f.single = (f.result.components == 1)) (hscratch : f.scratch = 0) : f.Sound where
  result_valid := hr
  args_valid := fun t ht => by
    rw [widenedType_of_not_splat hsplat]
    exact ⟨(hargs t ht).1, (hargs t ht).1⟩
  target_legal := by
    intro p hp
    rw [hbody] at hp
    obtain ⟨i, hi, rfl⟩ := List.mem_map.mp hp
    exact List.mem_range.mp hi
  source_legal := by
    intro p hp s hs
    rw [hbody] at hp
    obtain ⟨i, hi, rfl⟩ := List.mem_map.mp hp
    simp only [Pattern.perComponent, List.mem_map, List.mem_range] at hs hi
    obtain ⟨j, hj, rfl⟩ := hs
    rw [hn] at hj
    refine ⟨f.args[j], by simp [PatternSource.slot, slotType, hj, widenedType_of_not_splat hsplat],
      ?_⟩
    simp only [(hargs _ (List.getElem_mem hj)).2, hi]
  ready := by
    have hready : ∀ (l done : List Nat),
        ScratchReady done (l.map fun i => Pattern.perComponent m n i) := by
      intro l
      induction l with
      | nil => exact fun _ => trivial
      | cons i l ih =>
        refine fun done => ⟨fun s hs k hk => ?_, ih _⟩
        simp only [Pattern.perComponent, List.mem_map] at hs
        obtain ⟨j, -, rfl⟩ := hs
        cases hk
    rw [hbody]
    exact hready _ _
  covers := fun c hc => ⟨.perComponent m n c, by
    rw [hbody]
    exact List.mem_map.mpr ⟨c, List.mem_range.mpr hc, rfl⟩, rfl⟩
  single_iff := by simp [hbody, hsingle]
  scratch_of_single := fun _ => hscratch

theorem align_sound {op : TernaryOp} {m : Mnemonic} (ha : a.valid = true) (hb : b.valid = true)
    (hc : c.valid = true) (h : align op m a b c = some f) : f.Sound ∧ f.args = [a, b, c] := by
  simp only [align] at h
  split_ifs at h with hal
  cases h
  simp only [alignable, Bool.and_eq_true, beq_iff_eq] at hal
  obtain ⟨⟨⟨rfl, -⟩, -⟩, hcomp⟩ := hal
  refine ⟨.of_perComponent (m := m) (n := 3) ha ?_ rfl rfl rfl rfl rfl, rfl⟩
  simp only [List.mem_cons, List.not_mem_nil, or_false, forall_eq_or_imp, forall_eq]
  exact ⟨⟨ha, trivial⟩, ⟨ha, trivial⟩, hc, hcomp⟩

theorem cast_sound (hr : r.valid = true) (ha : a.valid = true) (h : cast r a = some f) :
    f.Sound ∧ f.args = [a] ∧ f.result = r := by
  simp only [cast] at h
  split_ifs at h with hcomp
  simp only [bne_iff_ne, ne_eq, not_not] at hcomp
  split at h <;> cases h
  · exact ⟨unaryDirect_sound ha hr, rfl, rfl⟩
  · rename_i m _
    refine ⟨.of_perComponent (m := m) (n := 1) hr ?_ rfl rfl rfl rfl rfl, rfl, rfl⟩
    simp only [List.mem_singleton, forall_eq]
    exact ⟨ha, hcomp.symm⟩

theorem bitcast_sound (hr : r.valid = true) (ha : a.valid = true) (h : bitcast r a = some f) :
    f.Sound ∧ f.args = [a] ∧ f.result = r := by
  simp only [bitcast] at h
  split_ifs at h
  cases h
  exact ⟨unaryDirect_sound ha hr, rfl, rfl⟩

/-! ### Bodies with a scratch register -/

theorem difference_sound (ha : a.valid = true) (hb : b.valid = true)
    (h : difference a b = some f) : f.Sound ∧ f.args = [a, b] := by
  simp only [difference, Option.bind_eq_bind, Option.bind_eq_some_iff] at h
  obtain ⟨r, hw, h⟩ := h
  have hr := ValueType.widen_valid hw ha hb
  split at h <;> cases h
  · exact ⟨.of_whole hr (args_valid_of_widen rfl hw ha hb) rfl (wholes_range 2) rfl rfl, rfl⟩
  · refine ⟨.of_whole hr (args_valid_of_widen rfl hw ha hb) rfl ?_ rfl rfl, rfl⟩
    intro s hs
    simp only [List.mem_cons, List.not_mem_nil, or_false] at hs
    rcases hs with rfl | rfl
    · exact ⟨0, _, rfl, by simp⟩
    · exact ⟨1, _, rfl, by simp⟩
  all_goals
    refine ⟨⟨hr, args_valid_of_widen rfl hw ha hb, ?_, ?_, ?_, ?_, ?_, ?_⟩, rfl⟩
    · simp [PatternTarget.Legal]
    · simp [PatternSource.Legal, PatternSource.slot, slotType]
    · simp [ScratchReady, PatternSource.slot, PatternTarget.scratch?]
    · simp [PatternTarget.Covers]
    · simp
    · simp

theorem remainder_sound (ha : a.valid = true) (hb : b.valid = true)
    (h : remainder a b = some f) : f.Sound ∧ f.args = [a, b] := by
  simp only [remainder, Option.bind_eq_bind, Option.bind_eq_some_iff] at h
  obtain ⟨r, hw, h⟩ := h
  have hr := ValueType.widen_valid hw ha hb
  split at h <;> cases h
  · refine ⟨⟨hr, args_valid_of_widen rfl hw ha hb, ?_, ?_, ?_, ?_, ?_, ?_⟩, rfl⟩
    · simp [PatternTarget.Legal]
    · simp [PatternSource.Legal, PatternSource.slot, slotType]
    · simp [ScratchReady, PatternSource.slot, PatternTarget.scratch?]
    · simp [PatternTarget.Covers]
    · simp
    · simp
  all_goals
    exact ⟨.of_whole hr (args_valid_of_widen rfl hw ha hb) rfl (wholes_range 2) rfl rfl, rfl⟩

/-! ### Merging -/

/-- Two operands that can be merged have one or two components each. -/
theorem merge_components {low high : ValueType} (hlow : low.valid = true)
    (hhigh : high.valid = true)
    (hr : (⟨low.kind, low.components + high.components⟩ : ValueType).valid = true) :
    (low.components = 1 ∨ low.components = 2) ∧ high.components = low.components := by
  obtain ⟨-, hl⟩ := low.valid_iff.mp hlow
  obtain ⟨-, hh⟩ := high.valid_iff.mp hhigh
  obtain ⟨-, hc⟩ := (ValueType.valid_iff _).mp hr
  simp only at hc
  omega

theorem merge_sound {low high : ValueType} (hlow : low.valid = true) (hhigh : high.valid = true)
    (h : merge low high = some f) : f.Sound ∧ f.args = [low, high] := by
  simp only [merge] at h
  split_ifs at h with hv
  obtain ⟨hr, hvec⟩ := ValueType.valid_vector hv
  rw [hvec] at h
  obtain ⟨hl, hh⟩ := merge_components hlow hhigh hr
  have hhalf : (⟨low.kind, high.components⟩ : ValueType).valid = true := by rw [hh]; exact hlow
  split at h
  · cases h
  rename_i m per hconv
  cases h
  refine ⟨⟨hr, ?_, ?_, ?_, ?_, ?_, ?_, ?_⟩, rfl⟩
  · intro t ht
    rw [widenedType_of_not_splat rfl]
    simp only [List.mem_cons, List.not_mem_nil, or_false] at ht
    rcases ht with rfl | rfl
    · exact ⟨hlow, hlow⟩
    · exact ⟨hhigh, hhigh⟩
  · intro p hp
    simp only [List.mem_cons] at hp
    rcases hp with rfl | hp
    · exact ⟨hlow, by simp⟩
    · split_ifs at hp
      · obtain ⟨i, hi, rfl⟩ := List.mem_map.mp hp
        simpa [PatternTarget.Legal] using hi
      · rw [List.mem_singleton.mp hp]
        exact ⟨hhalf, Nat.le_refl _⟩
  · intro p hp s hs
    simp only [List.mem_cons] at hp
    rcases hp with rfl | hp
    · rw [List.mem_singleton.mp hs]
      exact ⟨low, rfl, trivial⟩
    · split_ifs at hp
      · obtain ⟨i, hi, rfl⟩ := List.mem_map.mp hp
        rw [List.mem_singleton.mp hs]
        exact ⟨high, rfl, List.mem_range.mp hi⟩
      · rw [List.mem_singleton.mp hp] at hs
        rw [List.mem_singleton.mp hs]
        exact ⟨high, rfl, trivial⟩
  · rcases hl with hl | hl <;> rw [hh, hl] <;> cases per <;>
      simp [ScratchReady, PatternSource.slot, List.range_succ]
  · intro c hc
    simp only at hc
    by_cases hcl : c < low.components
    · exact ⟨⟨.mov, .resultSpan 0 low.components, [.aligned (.source 0)]⟩, by simp,
        Nat.zero_le _, by omega⟩
    · cases per
      · exact ⟨⟨m, .resultSpan low.components high.components, [.aligned (.source 1)]⟩, by simp,
          by omega, hc⟩
      · refine ⟨⟨m, .resultComponent (low.components + (c - low.components)),
          [.component (.source 1) (c - low.components)]⟩, ?_, ?_⟩
        · simp only [if_true, List.mem_cons, List.mem_map, List.mem_range]
          exact .inr ⟨c - low.components, by omega, rfl⟩
        · simp only [PatternTarget.Covers]
          omega
  · rcases hl with hl | hl <;> rw [hh, hl] <;> cases per <;> simp
  · simp

end Overload

/-! ### The table -/

variable {f : Overload} {a b c r : ValueType}

theorem UnaryOp.sound {op : UnaryOp} (h : op.overload? a = some f) : f.Sound ∧ f.args = [a] := by
  unfold overload? at h
  rw [Option.ite_none_right_eq_some] at h
  obtain ⟨hs, h⟩ := h
  have ha := ValueType.valid_of_standard hs
  cases op
  case neg => exact Overload.negation_sound ha h
  case bitNot | not =>
    simp only at h
    split_ifs at h
    cases h
    exact ⟨Overload.unaryDirect_sound ha ha, rfl⟩
  all_goals exact Overload.floatOnly_sound ha h

theorem Conversion.sound {op : Conversion} (h : op.overload? r a = some f) :
    f.Sound ∧ f.args = [a] ∧ f.result = r := by
  unfold overload? at h
  split_ifs at h with hs
  rw [Bool.and_eq_true] at hs
  have hr := ValueType.valid_of_standard hs.1
  have ha := ValueType.valid_of_standard hs.2
  cases op
  case cast => exact Overload.cast_sound hr ha h
  case bitcast => exact Overload.bitcast_sound hr ha h

theorem BinaryOp.sound {op : BinaryOp} (h : op.overload? a b = some f) :
    f.Sound ∧ f.args = [a, b] := by
  unfold overload? at h
  split_ifs at h with hs
  rw [Bool.and_eq_true] at hs
  have ha := ValueType.valid_of_standard hs.1
  have hb := ValueType.valid_of_standard hs.2
  cases op
  case sub => exact Overload.difference_sound ha hb h
  case mod => exact Overload.remainder_sound ha hb h
  case shl | shr => exact Overload.shift_sound ha hb h
  case eq | ne | lt | le | gt | ge => exact Overload.compare_sound ha hb h
  case dot => exact Overload.dot_sound ha hb h
  case merge => exact Overload.merge_sound ha hb h
  all_goals exact Overload.lanewise_sound ha hb h

theorem TernaryOp.sound {op : TernaryOp} (h : op.overload? a b c = some f) :
    f.Sound ∧ f.args = [a, b, c] := by
  unfold overload? at h
  split_ifs at h with hs
  simp only [Bool.and_eq_true] at hs
  have ha := ValueType.valid_of_standard hs.1.1
  have hb := ValueType.valid_of_standard hs.1.2
  have hc := ValueType.valid_of_standard hs.2
  cases op
  case mad => exact Overload.multiplyAdd_sound ha hb hc h
  case select => exact Overload.choice_sound ha hb hc h
  case bitAlign | byteAlign => exact Overload.align_sound ha hb hc h
  case bitInsert => exact Overload.bitInsert_sound ha hb hc h
  case bitExtract => exact Overload.bitExtract_sound ha hb hc h

end ShaderIL
