import ShaderIL.Proofs.Machine.Lines

/-!
# What the code of an operation computes

For every overload of the table: on operands that carry values, the lines of the overload leave in
its destination what the operation makes of these values (`UnaryOp.computes`, `Conversion.computes`,
`BinaryOp.computes`, `TernaryOp.computes`). The destination may be one of the operands if the
overload is one line, as a line reads before it writes; otherwise it is a register that no operand
lies in. One lemma for each family of overloads.
-/

namespace ShaderIL

namespace Overload

variable {m : Machine} {σ : Contents} {f : Overload} {n r start : Nat} {a b c : ValueType}
  {A B C : Operand} {x y z : Value}

/-! ### Two operands of a common type -/

/-- The families of two operands that are widened to a common type. -/
theorem widened_of_widen (hargs : f.args = [a, b]) (hsplat : f.splat = true)
    (hwiden : a.widen b = some f.result) : ∀ t ∈ f.args, t.laneWidth = a.laneWidth ∧
      (t.components = f.result.components ∨ f.splat = true ∧ t.components = 1) := by
  obtain ⟨hka, hkb, -, hca, hcb⟩ := ValueType.widen_spec hwiden
  have hw : b.laneWidth = a.laneWidth := by simp [ValueType.laneWidth, hka, hkb]
  simp only [hargs, hsplat, List.mem_cons, List.not_mem_nil, or_false, forall_eq_or_imp, forall_eq,
    true_and]
  exact ⟨hca.symm, hw, hcb.symm⟩

theorem lanewise_computes {op : BinaryOp} {table : Kind → Option Mnemonic}
    (h : lanewise op table a b = some f) (ha : a.valid = true) (hb : b.valid = true)
    (hshape : ∀ mn, table a.kind = some mn → mn.Lanewise a.laneWidth)
    (hargs : σ.CarriesAll n [A, B] [a, b] [x, y]) :
    (m.run σ (f.lines (.ofType (.temp r) f.result) [A, B] start)).Holds
      (.ofType (.temp r) f.result) f.result
      fun k => m.applyBy table a.kind [x.spread a k, y.spread b k] := by
  obtain ⟨hf, -⟩ := lanewise_sound ha hb h
  simp only [lanewise, Option.bind_eq_bind, Option.bind_eq_some_iff] at h
  obtain ⟨t, hwiden, mn, hmn, h⟩ := h
  cases h
  obtain ⟨hka, -⟩ := ValueType.widen_spec hwiden
  rw [← hka] at hmn
  have hbody : [Pattern.direct mn 2] = [⟨mn, .result, [(0, Sign.plain), (1, .plain)].map
    fun q => .whole (.source q.1) q.2⟩] := rfl
  refine (holds_of_whole hf hbody (hshape mn hmn) (.inl (by simp [ValueType.laneWidth, hka])) hargs
    (widened_of_widen rfl rfl hwiden) (by simp)).congr fun k _ j _ => ?_
  simp only [Machine.applyBy, hmn]
  rfl

theorem bitwise_computes {op : BinaryOp} {mn : Mnemonic}
    (h : lanewise op (Mnemonic.bitwise mn) a b = some f) (ha : a.valid = true) (hb : b.valid = true)
    (hn : mn.shape = .words) (hargs : σ.CarriesAll n [A, B] [a, b] [x, y]) :
    (m.run σ (f.lines (.ofType (.temp r) f.result) [A, B] start)).Holds
      (.ofType (.temp r) f.result) f.result
      fun k => m.apply mn [x.spread a k, y.spread b k] := by
  have hkind : Mnemonic.bitwise mn a.kind = some mn := by
    simp only [lanewise, Option.bind_eq_bind, Option.bind_eq_some_iff] at h
    obtain ⟨t, hwiden, mn', hmn, -⟩ := h
    obtain ⟨hka, -⟩ := ValueType.widen_spec hwiden
    rw [← hka] at hmn
    unfold Mnemonic.bitwise at hmn ⊢
    split at hmn
    · rfl
    · rfl
    · rfl
    · cases hmn
  refine (lanewise_computes h ha hb (fun _ => Mnemonic.lanewise_bitwise hn) hargs).congr
    fun k _ j _ => ?_
  simp only [Machine.applyBy, hkind, Option.getD_some]

theorem compare_computes {op : BinaryOp} {table : Kind → Option Mnemonic} {swap : Bool}
    (h : compare op table swap a b = some f) (ha : a.valid = true) (hb : b.valid = true)
    (hshape : ∀ mn, table a.kind = some mn → mn.Lanewise a.laneWidth)
    (hargs : σ.CarriesAll n [A, B] [a, b] [x, y]) :
    (m.run σ (f.lines (.ofType (.temp r) f.result) [A, B] start)).Holds
      (.ofType (.temp r) f.result) f.result
      fun k => m.applyBy table a.kind
        (if swap then [y.spread b k, x.spread a k] else [x.spread a k, y.spread b k]) := by
  obtain ⟨hf, -⟩ := compare_sound ha hb h
  simp only [compare, Option.bind_eq_bind, Option.bind_eq_some_iff] at h
  obtain ⟨t, hwiden, mn, hmn, h⟩ := h
  rw [Option.ite_none_left_eq_some] at h
  obtain ⟨hdouble, h⟩ := h
  cases h
  obtain ⟨hka, hkb, -, hca, hcb⟩ := ValueType.widen_spec hwiden
  have hbool : (⟨.bool, t.components⟩ : ValueType).valid = true :=
    ValueType.valid_of_components (ValueType.widen_valid hwiden ha hb) (by decide) (by decide)
  have hr : t.withKind .bool = ⟨.bool, t.components⟩ := ValueType.vector_eq hbool
  have hwb : b.laneWidth = a.laneWidth := by simp [ValueType.laneWidth, hka, hkb]
  rw [← hka] at hmn
  -- doubles are compared one at a time, everything else lane by lane
  have hw : (t.withKind .bool).laneWidth = a.laneWidth ∨
      (t.withKind .bool).lanes = 1 ∧ 0 < a.laneWidth := by
    simp only [Bool.and_eq_true, beq_iff_eq, bne_iff_ne, ne_eq, not_and, not_not] at hdouble
    by_cases hd : a.kind = .double
    · refine .inr ⟨?_, a.laneWidth_pos⟩
      rw [hr, ValueType.lanes, hdouble (hka ▸ hd)]
      rfl
    · refine .inl ?_
      rw [hr, ValueType.laneWidth_eq_one hd]
      rfl
  have hwide : ∀ u ∈ [a, b], u.laneWidth = a.laneWidth ∧
      (u.components = (t.withKind .bool).components ∨ true = true ∧ u.components = 1) := by
    simp only [hr, List.mem_cons, List.not_mem_nil, or_false, forall_eq_or_imp, forall_eq, true_and]
    exact ⟨hca.symm, hwb, hcb.symm⟩
  cases swap with
  | false =>
    have hbody : [(⟨mn, .result, [.whole (.source 0) .plain, .whole (.source 1) .plain]⟩ : Pattern)]
      = [⟨mn, .result, [(0, Sign.plain), (1, .plain)].map fun q => .whole (.source q.1) q.2⟩] := rfl
    refine (holds_of_whole hf hbody (hshape mn hmn) hw hargs hwide (by simp)).congr
      fun k _ j _ => ?_
    simp only [Machine.applyBy, hmn]
    rfl
  | true =>
    have hbody : [(⟨mn, .result, [.whole (.source 1) .plain, .whole (.source 0) .plain]⟩ : Pattern)]
      = [⟨mn, .result, [(1, Sign.plain), (0, .plain)].map fun q => .whole (.source q.1) q.2⟩] := rfl
    refine (holds_of_whole hf hbody (hshape mn hmn) hw hargs hwide (by simp)).congr
      fun k _ j _ => ?_
    simp only [Machine.applyBy, hmn]
    rfl

theorem shift_computes {op : BinaryOp} {signed unsigned : Mnemonic}
    (h : shift op signed unsigned a b = some f) (ha : a.valid = true) (hb : b.valid = true)
    (hsigned : signed.shape = .words) (hunsigned : unsigned.shape = .words)
    (hargs : σ.CarriesAll n [A, B] [a, b] [x, y]) :
    (m.run σ (f.lines (.ofType (.temp r) f.result) [A, B] start)).Holds
      (.ofType (.temp r) f.result) f.result
      fun k => m.apply (if a.kind = .int then signed else unsigned)
        [x.spread a k, y.spread b k] := by
  obtain ⟨hf, -⟩ := shift_sound ha hb h
  simp only [shift] at h
  split at h
  · rename_i mn hmn
    split_ifs at h with hamount
    cases h
    simp only [Bool.and_eq_true, Bool.or_eq_true, beq_iff_eq] at hamount
    have hb1 : b.laneWidth = 1 := by
      refine ValueType.laneWidth_eq_one fun hd => ?_
      simp [hd, Kind.isInteger] at hamount
    have hkind : a.laneWidth = 1 ∧ mn.shape = .words ∧
        mn = if a.kind = .int then signed else unsigned := by
      split at hmn
      · rename_i hk
        cases hmn
        exact ⟨ValueType.laneWidth_eq_one (by simp [hk]), hsigned, by simp [hk]⟩
      · rename_i hk
        cases hmn
        exact ⟨ValueType.laneWidth_eq_one (by simp [hk]), hunsigned, by simp [hk]⟩
      · cases hmn
    obtain ⟨ha1, hwords, heq⟩ := hkind
    have hbody : [Pattern.direct mn 2] = [⟨mn, .result, [(0, Sign.plain), (1, .plain)].map
      fun q => .whole (.source q.1) q.2⟩] := rfl
    refine (holds_of_whole hf hbody (.inr (.inl ⟨hwords, rfl⟩)) (.inl ha1) hargs ?_
      (by simp)).congr fun k _ j _ => ?_
    · simp only [List.mem_cons, List.not_mem_nil, or_false, forall_eq_or_imp, forall_eq, true_and]
      exact ⟨⟨ha1, .inl trivial⟩, hb1, hamount.2.symm⟩
    · rw [← heq]
      rfl
  · cases h

/-- An instruction on three operands, widened if need be. -/
theorem ternary_computes {mn : Mnemonic} {w : Nat} (hf : f.Sound) (hargs' : f.args = [a, b, c])
    (hbody : f.body = [.direct mn 3]) (hn : mn.Lanewise w) (hw : f.result.laneWidth = w)
    (hwide : ∀ t ∈ [a, b, c], t.laneWidth = w ∧
      (t.components = f.result.components ∨ f.splat = true ∧ t.components = 1))
    (hargs : σ.CarriesAll n [A, B, C] [a, b, c] [x, y, z]) :
    (m.run σ (f.lines (.ofType (.temp r) f.result) [A, B, C] start)).Holds
      (.ofType (.temp r) f.result) f.result
      fun k => m.apply mn [x.spread a k, y.spread b k, z.spread c k] := by
  have hbody' : f.body = [⟨mn, .result, [(0, Sign.plain), (1, .plain), (2, .plain)].map
    fun q => .whole (.source q.1) q.2⟩] := hbody
  rw [← hargs'] at hargs hwide
  refine (holds_of_whole hf hbody' hn (.inl hw) hargs hwide (by simp [hargs'])).congr
    fun k _ j _ => ?_
  rw [hargs']
  rfl

theorem multiplyAdd_computes (h : multiplyAdd a b c = some f) (ha : a.valid = true)
    (hb : b.valid = true) (hc : c.valid = true)
    (hargs : σ.CarriesAll n [A, B, C] [a, b, c] [x, y, z]) :
    (m.run σ (f.lines (.ofType (.temp r) f.result) [A, B, C] start)).Holds
      (.ofType (.temp r) f.result) f.result
      fun k => m.applyBy (Mnemonic.numeric .mad .dmad .imad .umad) a.kind
        [x.spread a k, y.spread b k, z.spread c k] := by
  obtain ⟨hf, hfargs⟩ := multiplyAdd_sound ha hb hc h
  simp only [multiplyAdd, Option.bind_eq_bind, Option.bind_eq_some_iff] at h
  obtain ⟨q, hq, t, hwiden, mn, hmn, h⟩ := h
  cases h
  obtain ⟨hka, hkb, -, hca, hcb⟩ := ValueType.widen_spec hq
  obtain ⟨hkq, hkc, hqt, hcq, hcc⟩ := ValueType.widen_spec hwiden
  have hkind : a.kind = t.kind := hka.trans hkq
  rw [← hkind] at hmn
  have hn : mn.Lanewise a.laneWidth := Mnemonic.lanewise_numeric rfl rfl rfl rfl hmn
  have hwa : t.laneWidth = a.laneWidth := by simp [ValueType.laneWidth, hkind]
  have hwb : b.laneWidth = a.laneWidth := by simp [ValueType.laneWidth, hka, hkb]
  have hwc : c.laneWidth = a.laneWidth := by simp [ValueType.laneWidth, hkind, hkc]
  have hwide : ∀ u ∈ [a, b, c], u.laneWidth = a.laneWidth ∧
      (u.components = t.components ∨ true = true ∧ u.components = 1) := by
    simp only [List.mem_cons, List.not_mem_nil, or_false, forall_eq_or_imp, forall_eq, true_and]
    refine ⟨?_, ⟨hwb, ?_⟩, hwc, hcc.symm⟩ <;> omega
  refine (ternary_computes hf rfl rfl hn hwa hwide hargs).congr fun k _ j _ => ?_
  simp only [Machine.applyBy, hmn, Option.getD_some]

theorem choice_computes (h : choice a b c = some f) (ha : a.valid = true) (hb : b.valid = true)
    (hc : c.valid = true) (hargs : σ.CarriesAll n [A, B, C] [a, b, c] [x, y, z]) :
    (m.run σ (f.lines (.ofType (.temp r) f.result) [A, B, C] start)).Holds
      (.ofType (.temp r) f.result) f.result
      fun k => m.apply .cmov [x.spread a k, y.spread b k, z.spread c k] := by
  obtain ⟨hf, -⟩ := choice_sound ha hb hc h
  simp only [choice, Option.bind_eq_bind, Option.bind_eq_some_iff] at h
  obtain ⟨t, hwiden, h⟩ := h
  split_ifs at h with hcond
  cases h
  simp only [Bool.and_eq_true, Bool.or_eq_true, beq_iff_eq, bne_iff_ne, ne_eq] at hcond
  obtain ⟨⟨hbool, hdouble⟩, hcomp⟩ := hcond
  obtain ⟨hkb, hkc, -, hcb, hcc⟩ := ValueType.widen_spec hwiden
  refine ternary_computes hf rfl rfl (.inr (.inl ⟨rfl, rfl⟩)) (ValueType.laneWidth_eq_one hdouble)
    ?_ hargs
  simp only [List.mem_cons, List.not_mem_nil, or_false, forall_eq_or_imp, forall_eq, true_and]
  exact ⟨⟨ValueType.laneWidth_eq_one (by simp [hbool]), hcomp.symm⟩,
    ⟨ValueType.laneWidth_eq_one (hkb ▸ hdouble), hcb.symm⟩,
    ValueType.laneWidth_eq_one (hkc ▸ hdouble), hcc.symm⟩

theorem bitInsert_computes (h : bitInsert a b c = some f) (ha : a.valid = true)
    (hb : b.valid = true) (hc : c.valid = true)
    (hargs : σ.CarriesAll n [A, B, C] [a, b, c] [x, y, z]) :
    (m.run σ (f.lines (.ofType (.temp r) f.result) [A, B, C] start)).Holds
      (.ofType (.temp r) f.result) f.result
      fun k => m.apply .bitInsert [x.spread a k, y.spread b k, z.spread c k] := by
  obtain ⟨hf, -⟩ := bitInsert_sound ha hb hc h
  simp only [bitInsert] at h
  split_ifs at h with hal
  cases h
  simp only [alignable, Bool.and_eq_true, beq_iff_eq] at hal
  obtain ⟨⟨⟨rfl, hint⟩, hwc⟩, hcomp⟩ := hal
  have ha1 := ValueType.laneWidth_of_integer hint
  refine ternary_computes hf rfl rfl (.inr (.inl ⟨rfl, rfl⟩)) ha1 ?_ hargs
  simp only [List.mem_cons, List.not_mem_nil, or_false, forall_eq_or_imp, forall_eq]
  exact ⟨⟨ha1, .inl trivial⟩, ⟨ha1, .inl trivial⟩, hwc.trans ha1, .inl hcomp⟩

theorem bitExtract_computes (h : bitExtract a b c = some f) (ha : a.valid = true)
    (hb : b.valid = true) (hc : c.valid = true)
    (hargs : σ.CarriesAll n [A, B, C] [a, b, c] [x, y, z]) :
    (m.run σ (f.lines (.ofType (.temp r) f.result) [A, B, C] start)).Holds
      (.ofType (.temp r) f.result) f.result
      fun k => m.apply (if a.kind = .uint then .ubitExtract else .ibitExtract)
        [x.spread a k, y.spread b k, z.spread c k] := by
  obtain ⟨hf, -⟩ := bitExtract_sound ha hb hc h
  simp only [bitExtract] at h
  split_ifs at h with hcond
  simp only [Bool.and_eq_true, beq_iff_eq] at hcond
  obtain ⟨⟨rfl, huint⟩, hcomp⟩ := hcond
  have hb1 : b.laneWidth = 1 := ValueType.laneWidth_eq_one (by simp [huint])
  split at h <;> cases h
  all_goals
    rename_i hk
    have ha1 : a.laneWidth = 1 := ValueType.laneWidth_eq_one (by simp [hk])
    have hwide : ∀ u ∈ [a, b, b], u.laneWidth = 1 ∧
        (u.components = a.components ∨ false = true ∧ u.components = 1) := by
      simp only [List.mem_cons, List.not_mem_nil, or_false, forall_eq_or_imp, forall_eq]
      exact ⟨⟨ha1, .inl trivial⟩, ⟨hb1, .inl hcomp.symm⟩, hb1, .inl hcomp.symm⟩
    simp only [hk, reduceCtorEq, if_true, if_false]
    exact ternary_computes hf rfl rfl (.inr (.inl ⟨rfl, rfl⟩)) ha1 hwide hargs

/-! ### One operand -/

theorem unaryDirect_computes {op : Opcode} {t : ValueType} {mn : Mnemonic} (ha : a.valid = true)
    (ht : t.valid = true) (hn : mn.Lanewise a.laneWidth) (hw : t.laneWidth = a.laneWidth)
    (hc : a.components = t.components) (hargs : σ.CarriesAll n [A] [a] [x]) :
    (m.run σ ((unaryDirect op a t mn).lines (.ofType (.temp r) t) [A] start)).Holds
      (.ofType (.temp r) t) t fun k => m.apply mn [x k] := by
  have hbody : [Pattern.direct mn 1] = [⟨mn, .result, [(0, Sign.plain)].map
    fun q => .whole (.source q.1) q.2⟩] := rfl
  have hwide : ∀ u ∈ [a], u.laneWidth = a.laneWidth ∧
      (u.components = t.components ∨ false = true ∧ u.components = 1) := by simp [hc]
  refine (holds_of_whole (f := unaryDirect op a t mn) (unaryDirect_sound ha ht) hbody hn (.inl hw)
    hargs hwide (by simp [unaryDirect])).congr fun k hk j _ => ?_
  change m.apply mn [x.spread a k] j = _
  rw [Value.spread_of_lt (hc.symm ▸ hk)]

theorem negation_computes (h : negation a = some f) (ha : a.valid = true)
    (hargs : σ.CarriesAll n [A] [a] [x]) :
    (m.run σ (f.lines (.ofType (.temp r) f.result) [A] start)).Holds
      (.ofType (.temp r) f.result) f.result (UnaryOp.value m .neg a x) := by
  obtain ⟨hf, -⟩ := negation_sound ha h
  -- floats and doubles are moved under a modifier
  have hmove : ∀ sign : Sign, (sign = .highNegated → a.laneWidth = 2) → ∀ g : Overload,
      g = { op := .unary .neg, args := [a], result := a,
            body := [⟨.mov, .result, [.whole (.source 0) sign]⟩] } → g.Sound →
      (m.run σ (g.lines (.ofType (.temp r) g.result) [A] start)).Holds
        (.ofType (.temp r) g.result) g.result fun k => m.signed (x k) sign := by
    rintro sign hsign g rfl hg
    have hbody : [(⟨.mov, .result, [.whole (.source 0) sign]⟩ : Pattern)] =
      [⟨.mov, .result, [(0, sign)].map fun q => .whole (.source q.1) q.2⟩] := rfl
    refine (holds_of_whole hg hbody (.inl rfl) (.inl rfl) hargs (by simp)
      (by simpa using hsign)).congr fun k hk j _ => ?_
    change m.apply .mov [m.signed (x.spread a k) sign] j = _
    rw [Value.spread_of_lt hk]
    rfl
  simp only [negation] at h
  split at h <;> cases h
  · rename_i hk
    exact (hmove .negated (by simp) _ rfl hf).congr fun k _ j _ => by
      simp only [UnaryOp.value, hk, Machine.signed]
  · rename_i hk
    have hw : a.laneWidth = 2 := by rw [ValueType.laneWidth, hk]; rfl
    exact (hmove .highNegated (fun _ => hw) _ rfl hf).congr fun k _ j _ => by
      simp only [UnaryOp.value, hk, Machine.signed]
  · rename_i hk
    have hw : a.laneWidth = 1 := ValueType.laneWidth_eq_one (by simp [hk])
    exact (unaryDirect_computes ha ha (.inr (.inl ⟨rfl, hw⟩)) rfl rfl hargs).congr
      fun k _ j _ => by simp only [UnaryOp.value, hk]

theorem floatOnly_computes {op : UnaryOp} {mn : Mnemonic} (h : floatOnly op mn a = some f)
    (ha : a.valid = true) (hn : mn.shape = .words) (hargs : σ.CarriesAll n [A] [a] [x]) :
    (m.run σ (f.lines (.ofType (.temp r) f.result) [A] start)).Holds
      (.ofType (.temp r) f.result) f.result fun k => m.apply mn [x k] := by
  simp only [floatOnly] at h
  split_ifs at h with hk
  cases h
  rw [beq_iff_eq] at hk
  have hw : a.laneWidth = 1 := ValueType.laneWidth_eq_one (by simp [hk])
  exact unaryDirect_computes ha ha (.inr (.inl ⟨hn, hw⟩)) rfl rfl hargs

/-- A move hands the lanes on, whatever type they are read at. -/
theorem bitcast_computes {t : ValueType} (h : bitcast t a = some f) (ha : a.valid = true)
    (ht : t.valid = true) (hargs : σ.CarriesAll n [A] [a] [x]) :
    (m.run σ (f.lines (.ofType (.temp r) t) [A] start)).Holds (.ofType (.temp r) t) t
      (Conversion.value m .bitcast t a x) := by
  simp only [bitcast] at h
  split_ifs at h with hlanes
  cases h
  rw [beq_iff_eq] at hlanes
  have hplain : (unaryDirect (.convert .bitcast) a t .mov).widened [A] = [A] :=
    widened_of_not_splat rfl hargs
  obtain _ | ⟨hA, _⟩ := hargs
  rw [lines_of_body rfl, hplain]
  refine Machine.step_holds (D := .ofType (.temp r) t) (Operand.ofType_fits _ ht) rfl
    fun k hk j hj => ?_
  have hlane := ValueType.lane_lt hk hj
  rw [Operand.val_getD_ofType _ ht hlane]
  exact hA.supplies ha _ (hlane.trans_eq hlanes)

/-! ### Dot products -/

theorem dot_computes (h : dot a b = some f) (ha : a.valid = true)
    (hargs : σ.CarriesAll n [A, B] [a, b] [x, y]) :
    (m.run σ (f.lines (.ofType (.temp r) f.result) [A, B] start)).Holds
      (.ofType (.temp r) f.result) f.result (BinaryOp.value m .dot a b x y) := by
  simp only [dot] at h
  split_ifs at h with hcond
  rw [Bool.and_eq_true, beq_iff_eq, beq_iff_eq] at hcond
  obtain ⟨rfl, hk⟩ := hcond
  have hw : a.laneWidth = 1 := ValueType.laneWidth_eq_one (by simp [hk])
  have hsupply : ∀ {o : Operand} {v : Value}, σ.Carries n o a v → ∀ p < a.components,
      m.supply σ o.source p = v p 0 := by
    intro o v ho p hp
    rw [ho.supplies ha p (by rw [hw, Nat.mul_one]; exact hp), hw, Nat.div_one, Nat.mod_one]
  have hline : ∀ (mn : Mnemonic) (c : Nat), mn.shape = .gathers c → a.components = c →
      ∀ g : Overload, g = { op := .binary .dot, args := [a, a], result := .float1,
                            body := [.direct mn 2] } →
      (m.run σ (g.lines (.ofType (.temp r) g.result) [A, B] start)).Holds
        (.ofType (.temp r) g.result) g.result fun _ => m.apply mn [fun p => x p 0, fun p => y p 0] := by
    rintro mn c hmn hc g rfl
    rw [lines_of_body rfl, widened_of_not_splat rfl hargs]
    obtain _ | ⟨hA, _ | ⟨hB, _⟩⟩ := hargs
    refine Machine.step_holds (D := .ofType (.temp r) .float1) (Operand.ofType_fits _ rfl) rfl
      fun k hk j hj => ?_
    have hlane := ValueType.lane_lt hk hj
    have hp : k * ValueType.float1.laneWidth + j = j := by
      rw [show k = 0 from Nat.lt_one_iff.mp hk, Nat.zero_mul, Nat.zero_add]
    rw [Operand.val_getD_ofType _ rfl hlane, hp]
    refine Machine.apply_gathers hmn (.cons ?_ (.cons ?_ .nil)) j
    · exact fun p hp => hsupply hA p (hc ▸ hp)
    · exact fun p hp => hsupply hB p (hc ▸ hp)
  split at h <;> cases h
  · rename_i hc
    exact (hline .dot2 2 rfl hc _ rfl).congr fun k _ j _ => by
      simp only [BinaryOp.value, hc, if_true]
  · rename_i hc
    exact (hline .dot4 4 rfl hc _ rfl).congr fun k _ j _ => by
      simp only [BinaryOp.value, hc, Nat.reduceEqDiff, if_false]

/-! ### Scratch registers -/

/-- Two operands widened to a common type, as the lines of the overload read them. -/
theorem supplies_widen {dst dst' : Operand} {scratch : List Operand} (hf : f.Sound)
    (hargs' : f.args = [a, b]) (hsplat : f.splat = true) (hwiden : a.widen b = some f.result)
    (hargs : σ.CarriesAll n [A, B] [a, b] [x, y]) :
    m.Supplies σ f.result.components f.result.laneWidth
        (Operands.sourceOperand ⟨dst, f.widened [A, B], scratch⟩ dst' (.whole (.source 0) .plain))
        (x.spread a) ∧
      m.Supplies σ f.result.components f.result.laneWidth
        (Operands.sourceOperand ⟨dst, f.widened [A, B], scratch⟩ dst' (.whole (.source 1) .plain))
        (y.spread b) := by
  obtain ⟨hka, -⟩ := ValueType.widen_spec hwiden
  have hwide := widened_of_widen hargs' hsplat hwiden
  rw [show a.laneWidth = f.result.laneWidth by simp [ValueType.laneWidth, hka]] at hwide
  rw [← hargs'] at hargs
  exact ⟨supplies_whole hf hargs hwide (by simp [hargs']) rfl (by simp),
    supplies_whole hf hargs hwide (by simp [hargs']) rfl (by simp)⟩

theorem difference_computes (h : difference a b = some f) (ha : a.valid = true)
    (hb : b.valid = true) (hargs : σ.CarriesAll n [A, B] [a, b] [x, y])
    (hdst : f.single = true ∨ n ≤ r ∧ r < start) :
    (m.run σ (f.lines (.ofType (.temp r) f.result) [A, B] start)).Holds
      (.ofType (.temp r) f.result) f.result (BinaryOp.value m .sub a b x y) := by
  obtain ⟨hf, -⟩ := difference_sound ha hb h
  simp only [difference, Option.bind_eq_bind, Option.bind_eq_some_iff] at h
  obtain ⟨t, hwiden, h⟩ := h
  obtain ⟨hka, -⟩ := ValueType.widen_spec hwiden
  have hwa : t.laneWidth = a.laneWidth := by simp [ValueType.laneWidth, hka]
  split at h <;> cases h
  · rename_i hk
    have hbody : [Pattern.direct .sub 2] = [⟨.sub, .result, [(0, Sign.plain), (1, .plain)].map
      fun q => .whole (.source q.1) q.2⟩] := rfl
    have hw : a.laneWidth = 1 := ValueType.laneWidth_eq_one (by simp [hka, hk])
    refine (holds_of_whole hf hbody (.inr (.inl ⟨rfl, hw⟩)) (.inl hwa) hargs
      (widened_of_widen rfl rfl hwiden) (by simp)).congr fun k _ j _ => ?_
    simp only [BinaryOp.value, hka, hk]
    rfl
  · rename_i hk
    have hbody : [(⟨.dadd, .result, [.whole (.source 0) .plain, .whole (.source 1) .highNegated]⟩ :
      Pattern)] = [⟨.dadd, .result, [(0, Sign.plain), (1, .highNegated)].map
        fun q => .whole (.source q.1) q.2⟩] := rfl
    have hw : a.laneWidth = 2 := by rw [ValueType.laneWidth, hka, hk]; rfl
    refine (holds_of_whole hf hbody (.inr (.inr ⟨rfl, hw⟩)) (.inl hwa) hargs
      (widened_of_widen rfl rfl hwiden) (by simp [hw])).congr fun k _ j _ => ?_
    simp only [BinaryOp.value, hka, hk]
    rfl
  all_goals
    rename_i hk
    have hn : ∀ mn : Mnemonic, mn.shape = .words → mn.Lanewise t.laneWidth := fun mn hmn =>
      .inr (.inl ⟨hmn, ValueType.laneWidth_eq_one (by simp [hk])⟩)
    simp only [Bool.false_eq_true, false_or] at hdst
    have hle : n ≤ start := by omega
    obtain ⟨-, hy⟩ := supplies_widen (m := m) hf rfl rfl hwiden hargs
    obtain ⟨hσ, hneg⟩ := Machine.step_scratch hle hf.result_valid (hn .inegate rfl) (.cons hy .nil)
    obtain ⟨hx, -⟩ := supplies_widen (m := m) hf rfl rfl hwiden (hargs.agree hσ)
    have hadd := Machine.step_componentwise (r := r) hf.result_valid (hn .iadd rfl) (.inl rfl)
      (.cons hx (.cons (hneg.supplies hf.result_valid) .nil))
    refine hadd.congr fun k _ j _ => ?_
    simp only [BinaryOp.value, hka, hk]
    rfl

theorem remainder_computes (h : remainder a b = some f) (ha : a.valid = true)
    (hb : b.valid = true) (hargs : σ.CarriesAll n [A, B] [a, b] [x, y])
    (hdst : f.single = true ∨ n ≤ r ∧ r < start) :
    (m.run σ (f.lines (.ofType (.temp r) f.result) [A, B] start)).Holds
      (.ofType (.temp r) f.result) f.result (BinaryOp.value m .mod a b x y) := by
  obtain ⟨hf, -⟩ := remainder_sound ha hb h
  simp only [remainder, Option.bind_eq_bind, Option.bind_eq_some_iff] at h
  obtain ⟨t, hwiden, h⟩ := h
  obtain ⟨hka, -⟩ := ValueType.widen_spec hwiden
  have hwa : t.laneWidth = a.laneWidth := by simp [ValueType.laneWidth, hka]
  have hone : t.kind ≠ .double → ∀ mn : Mnemonic, mn.shape = .words → mn.Lanewise t.laneWidth :=
    fun hk mn hmn => .inr (.inl ⟨hmn, ValueType.laneWidth_eq_one hk⟩)
  have hbody : ∀ mn : Mnemonic, [Pattern.direct mn 2] = [⟨mn, .result,
    [(0, Sign.plain), (1, .plain)].map fun q => .whole (.source q.1) q.2⟩] := fun _ => rfl
  split at h <;> cases h
  · rename_i hk
    have hn := hone (by simp [hk])
    simp only [Bool.false_eq_true, false_or] at hdst
    have hle : n ≤ start := by omega
    obtain ⟨hx, hy⟩ := supplies_widen (m := m) hf rfl rfl hwiden hargs
    obtain ⟨hσ₁, hdiv⟩ := Machine.step_scratch hle hf.result_valid (hn .div rfl)
      (.cons hx (.cons hy .nil))
    obtain ⟨hσ₂, hfloor⟩ := Machine.step_scratch hle hf.result_valid (hn .floor rfl)
      (.cons (hdiv.supplies hf.result_valid) .nil)
    obtain ⟨hx', hy'⟩ := supplies_widen (m := m) hf rfl rfl hwiden (hargs.agree (hσ₁.trans hσ₂))
    have hneg := hfloor.supplies_signed (m := m) hf.result_valid .negated (by simp)
    have hmad := Machine.step_componentwise (r := r) hf.result_valid (hn .mad rfl) (.inl rfl)
      (.cons hneg (.cons hy' (.cons hx' .nil)))
    refine hmad.congr fun k _ j _ => ?_
    simp only [BinaryOp.value, hka, hk]
    rfl
  · rename_i hk
    refine (holds_of_whole hf (hbody .imod) (hwa ▸ hone (by simp [hk]) .imod rfl) (.inl hwa) hargs
      (widened_of_widen rfl rfl hwiden) (by simp)).congr fun k _ j _ => ?_
    simp only [BinaryOp.value, hka, hk]
    rfl
  · rename_i hk
    refine (holds_of_whole hf (hbody .umod) (hwa ▸ hone (by simp [hk]) .umod rfl) (.inl hwa) hargs
      (widened_of_widen rfl rfl hwiden) (by simp)).congr fun k _ j _ => ?_
    simp only [BinaryOp.value, hka, hk]
    rfl

/-- One line per component. -/
theorem perComponent_computes {mn : Mnemonic} {w : Nat} {args : List Operand} {xs : List Value}
    (hf : f.Sound) (hsplat : f.splat = false)
    (hbody : f.body = (List.range f.result.components).map fun i =>
      .perComponent mn f.args.length i)
    (hn : mn.Alone w f.result.laneWidth) (hargs : σ.CarriesAll n args f.args xs)
    (hwide : ∀ t ∈ f.args, t.laneWidth = w ∧ t.components = f.result.components)
    (hdst : f.single = true ∨ n ≤ r) :
    (m.run σ (f.lines (.ofType (.temp r) f.result) args start)).Holds
      (.ofType (.temp r) f.result) f.result fun k => m.apply mn (xs.map fun x => x k) := by
  have hplain := widened_of_not_splat hsplat hargs
  refine holds_of_parts hf hargs hdst ?_ ?_ ?_
  · rw [hbody, List.forall_mem_map]
    exact fun i _ => rfl
  · rw [hbody, List.forall_mem_map]
    intro i _ s hs
    obtain ⟨q, -, rfl⟩ := List.mem_map.mp hs
    exact ⟨q, rfl⟩
  · intro k hk
    refine ⟨.perComponent mn f.args.length k, ?_, rfl, ?_, fun j hj => ?_⟩
    · rw [hbody]
      exact List.mem_map_of_mem (List.mem_range.mpr hk)
    · rw [hbody, List.forall_mem_map]
      intro i _ hcovers
      rw [show k = i from hcovers]
    · refine Machine.apply_alone hn ?_ k hj
      have hlen : f.args.length = args.length := hargs.fits.length_eq.symm
      have hsrcs : (Pattern.filled (.perComponent mn f.args.length k)
          ⟨.ofType (.temp r) f.result, f.widened args,
            Draft.registersFrom f.result start f.scratch⟩).srcs =
              args.map fun o => (o.picked ⟨[.ofIndex k]⟩).source := by
        rw [hplain, hlen]
        refine List.ext_getElem (by simp [Pattern.filled, Pattern.perComponent]) fun i hi hi' => ?_
        have hi : i < args.length := by simpa using hi'
        simp [Pattern.filled, Pattern.perComponent, Operands.sourceOperand, Operands.slot, hi]
      rw [hsrcs, List.map_map, List.forall₂_map_left_iff, List.forall₂_map_right_iff]
      refine hargs.forall₂ fun o x t ht ho p => ?_
      obtain ⟨rfl, hc⟩ := hwide t ht
      exact ho.supply_component (hf.args_valid t ht).1 (hc ▸ hk) p

theorem align_computes {op : TernaryOp} {mn : Mnemonic} (h : align op mn a b c = some f)
    (ha : a.valid = true) (hb : b.valid = true) (hc : c.valid = true) (hn : mn.shape = .words)
    (hargs : σ.CarriesAll n [A, B, C] [a, b, c] [x, y, z]) (hdst : f.single = true ∨ n ≤ r) :
    (m.run σ (f.lines (.ofType (.temp r) f.result) [A, B, C] start)).Holds
      (.ofType (.temp r) f.result) f.result
      fun k => m.apply mn [x.spread a k, y.spread b k, z.spread c k] := by
  obtain ⟨hf, -⟩ := align_sound ha hb hc h
  simp only [align] at h
  split_ifs at h with hal
  cases h
  simp only [alignable, Bool.and_eq_true, beq_iff_eq] at hal
  obtain ⟨⟨⟨rfl, hint⟩, hwc⟩, hcomp⟩ := hal
  have ha1 := ValueType.laneWidth_of_integer hint
  have hwide : ∀ t ∈ [a, a, c], t.laneWidth = 1 ∧ t.components = a.components := by
    simp [ha1, hwc, hcomp]
  refine (perComponent_computes hf rfl rfl (.inl ⟨hn, rfl, ha1⟩) hargs hwide hdst).congr
    fun k hk j _ => ?_
  have hkc : k < c.components := hcomp ▸ hk
  simp only [Value.spread_of_lt hk, Value.spread_of_lt hkc, List.map_cons, List.map_nil]

end Overload

/-- The instructions that convert a kind: those that work one component at a time change the number
of words, the others keep it. -/
theorem Kind.conversion_shape {target source : Kind} {mn : Mnemonic} {per : Bool}
    (h : target.conversion source = some (mn, per)) :
    (per = true → mn.Alone source.laneWidth target.laneWidth) ∧
      (per = false → target.laneWidth = source.laneWidth ∧
        (mn.shape = .move ∨ mn.shape = .words ∧ source.laneWidth = 1)) := by
  unfold conversion at h
  split at h
  all_goals try split_ifs at h with heq
  all_goals cases h
  all_goals simp_all [Mnemonic.Alone, Mnemonic.shape, laneWidth]

namespace Overload

variable {m : Machine} {σ : Contents} {f : Overload} {n r start : Nat} {a b : ValueType}
  {A B : Operand} {x y : Value}

theorem cast_computes {t : ValueType} (h : cast t a = some f) (ht : t.valid = true)
    (ha : a.valid = true) (hargs : σ.CarriesAll n [A] [a] [x])
    (hdst : f.single = true ∨ n ≤ r) :
    (m.run σ (f.lines (.ofType (.temp r) t) [A] start)).Holds (.ofType (.temp r) t) t
      (Conversion.value m .cast t a x) := by
  obtain ⟨hf, -, -⟩ := cast_sound ht ha h
  simp only [cast] at h
  split_ifs at h with hcomp
  simp only [bne_iff_ne, ne_eq, not_not] at hcomp
  split at h <;> cases h
  · rename_i mn hconv
    obtain ⟨hw, hshape⟩ := (Kind.conversion_shape hconv).2 rfl
    have hn : mn.Lanewise a.laneWidth := hshape.imp_right .inl
    refine (unaryDirect_computes ha ht hn hw hcomp.symm hargs).congr fun k _ j _ => ?_
    simp only [Conversion.value, Machine.convert, hconv, Option.map_some, Option.getD_some]
  · rename_i mn hconv
    have hwide : ∀ u ∈ [a], u.laneWidth = a.laneWidth ∧ u.components = t.components := by
      simp [hcomp]
    refine (perComponent_computes hf rfl rfl ((Kind.conversion_shape hconv).1 rfl) hargs hwide
      hdst).congr fun k _ j _ => ?_
    simp only [Conversion.value, Machine.convert, hconv, Option.map_some, Option.getD_some,
      List.map_cons, List.map_nil]

/-- A merge has the components of both operands, in the kind of the first. -/
theorem merge_spec (h : merge a b = some f) :
    f.splat = false ∧ f.result = ⟨a.kind, a.components + b.components⟩ ∧
      ∃ mn per, a.kind.conversion b.kind = some (mn, per) := by
  simp only [merge] at h
  split_ifs at h with hv
  rw [(ValueType.valid_vector hv).2] at h
  split at h <;> cases h
  exact ⟨rfl, rfl, _, _, ‹_›⟩

theorem mem_merge_body (h : merge a b = some f) {mn : Mnemonic} {per : Bool}
    (hconv : a.kind.conversion b.kind = some (mn, per)) {p : Pattern} : p ∈ f.body ↔
      p = ⟨.mov, .resultSpan 0 a.components, [.aligned (.source 0)]⟩ ∨
        (per = true ∧ ∃ i < b.components,
          p = ⟨mn, .resultComponent (a.components + i), [.component (.source 1) i]⟩) ∨
        (per = false ∧
          p = ⟨mn, .resultSpan a.components b.components, [.aligned (.source 1)]⟩) := by
  simp only [merge, hconv, Option.ite_none_right_eq_some] at h
  obtain ⟨-, h⟩ := h
  cases h
  cases per with
  | true => simp [eq_comm]
  | false => simp

/-- Merging: the first line moves the low components, the others turn the high ones into the kind of
the result. -/
theorem merge_computes (h : merge a b = some f) (ha : a.valid = true) (hb : b.valid = true)
    (hargs : σ.CarriesAll n [A, B] [a, b] [x, y]) (hdst : f.single = true ∨ n ≤ r) :
    (m.run σ (f.lines (.ofType (.temp r) f.result) [A, B] start)).Holds
      (.ofType (.temp r) f.result) f.result (BinaryOp.value m .merge a b x y) := by
  obtain ⟨hf, hfargs⟩ := merge_sound ha hb h
  obtain ⟨hsplat, hresult, mn, per, hconv⟩ := merge_spec h
  have hmem := fun {p} => mem_merge_body h hconv (p := p)
  have hshape := Kind.conversion_shape hconv
  have hv : (⟨a.kind, a.components + b.components⟩ : ValueType).valid = true :=
    hresult ▸ hf.result_valid
  rw [← hfargs] at hargs
  refine holds_of_parts hf hargs hdst ?_ ?_ ?_
  · intro p hp
    rcases hmem.mp hp with rfl | ⟨-, i, -, rfl⟩ | ⟨-, rfl⟩ <;> rfl
  · intro p hp s hs
    rcases hmem.mp hp with rfl | ⟨-, i, -, rfl⟩ | ⟨-, rfl⟩ <;> rw [List.mem_singleton.mp hs]
    · exact ⟨0, rfl⟩
    · exact ⟨1, rfl⟩
    · exact ⟨1, rfl⟩
  rw [widened_of_not_splat hsplat hargs, hresult]
  rw [hfargs] at hargs
  obtain _ | ⟨hA, _ | ⟨hB, _⟩⟩ := hargs
  intro k hk
  simp only at hk
  by_cases hka : k < a.components
  · refine ⟨_, hmem.mpr (.inl rfl), ⟨Nat.zero_le _, by omega⟩, ?_, fun j hj => ?_⟩
    · intro q hq hcovers
      rcases hmem.mp hq with rfl | ⟨-, i, -, rfl⟩ | ⟨-, rfl⟩
      · rfl
      · exact absurd (show k = a.components + i from hcovers) (by omega)
      · exact absurd hcovers.1 (by omega)
    · have hsupply := supply_span (m := m) (r := r) (i := 0) hv ha rfl (by simp) hA rfl hka hj
      simp only [BinaryOp.value, hka, if_true]
      rw [Nat.zero_add] at hsupply
      exact hsupply
  · have hlow : ∀ q : Pattern, q = ⟨.mov, .resultSpan 0 a.components, [.aligned (.source 0)]⟩ →
        ¬ q.target.Covers k := by
      rintro q rfl ⟨-, hlt⟩
      omega
    have hval : ∀ j, BinaryOp.value m .merge a b x y k j =
        m.apply mn [y (k - a.components)] j := by
      intro j
      simp only [BinaryOp.value, hka, if_false, Machine.convert, hconv, Option.map_some,
        Option.getD_some]
    obtain ⟨i, rfl⟩ := Nat.exists_eq_add_of_le (Nat.le_of_not_lt hka)
    simp only [Nat.add_sub_cancel_left] at hval
    cases per with
    | false =>
      obtain ⟨hw, hshape⟩ := hshape.2 rfl
      refine ⟨_, hmem.mpr (.inr (.inr ⟨rfl, rfl⟩)), ⟨by omega, hk⟩, ?_, fun j hj => ?_⟩
      · intro q hq hcovers
        rcases hmem.mp hq with hq | ⟨hf, -⟩ | ⟨-, hq⟩
        · exact absurd hcovers (hlow q hq)
        · cases hf
        · exact hq
      · have hsupply := supply_span (m := m) (r := r) hv hb hw.symm (Nat.le_refl _) hB rfl
          (Nat.lt_of_add_lt_add_left hk) hj
        rw [hval]
        rcases hshape with hmove | ⟨hwords, hone⟩
        · simp only [Machine.apply, hmove]
          exact hsupply
        · obtain rfl : j = 0 := by
            have hj : j < a.kind.laneWidth := hj
            omega
          simp only [Machine.apply, hwords]
          exact congrArg (fun u => m.word mn [u]) hsupply
    | true =>
      refine ⟨_, hmem.mpr (.inr (.inl ⟨rfl, i, by omega, rfl⟩)), rfl, ?_, fun j hj => ?_⟩
      · intro q hq hcovers
        rcases hmem.mp hq with hq | ⟨-, i', -, rfl⟩ | ⟨hf, -⟩
        · exact absurd hcovers (hlow q hq)
        · rw [Nat.add_left_cancel (show a.components + i = a.components + i' from hcovers)]
        · cases hf
      · rw [hval]
        refine Machine.apply_alone (hshape.1 rfl) (.cons (fun p => ?_) .nil) _ hj
        exact hB.supply_component hb (Nat.lt_of_add_lt_add_left hk) p

end Overload

/-! ### The table -/

variable {m : Machine} {σ : Contents} {f : Overload} {n r start : Nat} {a b c t : ValueType}
  {A B C : Operand} {x y z : Value}

theorem UnaryOp.computes {op : UnaryOp} (h : op.overload? a = some f)
    (hargs : σ.CarriesAll n [A] [a] [x]) :
    (m.run σ (f.lines (.ofType (.temp r) f.result) [A] start)).Holds
      (.ofType (.temp r) f.result) f.result (op.value m a x) := by
  unfold overload? at h
  rw [Option.ite_none_right_eq_some] at h
  obtain ⟨hs, h⟩ := h
  have ha := ValueType.valid_of_standard hs
  cases op
  case neg => exact Overload.negation_computes h ha hargs
  case bitNot | not =>
    simp only at h
    split_ifs at h with hk
    cases h
    have hw : a.laneWidth = 1 := by
      refine ValueType.laneWidth_eq_one fun hd => ?_
      simp [hd, Kind.isInteger] at hk
    exact Overload.unaryDirect_computes ha ha (.inr (.inl ⟨rfl, hw⟩)) rfl rfl hargs
  all_goals exact Overload.floatOnly_computes h ha rfl hargs

theorem Conversion.computes {op : Conversion} (h : op.overload? t a = some f)
    (hargs : σ.CarriesAll n [A] [a] [x]) (hdst : f.single = true ∨ n ≤ r) :
    (m.run σ (f.lines (.ofType (.temp r) f.result) [A] start)).Holds
      (.ofType (.temp r) f.result) f.result (op.value m t a x) := by
  obtain ⟨-, -, hresult⟩ := Conversion.sound h
  unfold overload? at h
  split_ifs at h with hs
  rw [Bool.and_eq_true] at hs
  have ht := ValueType.valid_of_standard hs.1
  have ha := ValueType.valid_of_standard hs.2
  rw [hresult]
  cases op
  case cast => exact Overload.cast_computes h ht ha hargs hdst
  case bitcast => exact Overload.bitcast_computes h ha ht hargs

theorem BinaryOp.computes {op : BinaryOp} (h : op.overload? a b = some f)
    (hargs : σ.CarriesAll n [A, B] [a, b] [x, y]) (hdst : f.single = true ∨ n ≤ r ∧ r < start) :
    (m.run σ (f.lines (.ofType (.temp r) f.result) [A, B] start)).Holds
      (.ofType (.temp r) f.result) f.result (op.value m a b x y) := by
  unfold overload? at h
  split_ifs at h with hs
  rw [Bool.and_eq_true] at hs
  have ha := ValueType.valid_of_standard hs.1
  have hb := ValueType.valid_of_standard hs.2
  cases op
  case sub => exact Overload.difference_computes h ha hb hargs hdst
  case mod => exact Overload.remainder_computes h ha hb hargs hdst
  case dot => exact Overload.dot_computes h ha hargs
  case merge => exact Overload.merge_computes h ha hb hargs (hdst.imp_right And.left)
  case and | or | xor => exact Overload.bitwise_computes h ha hb rfl hargs
  case shl =>
    exact (Overload.shift_computes h ha hb rfl rfl hargs).congr fun k _ j _ => by
      simp only [ite_self, value]
  case shr => exact Overload.shift_computes h ha hb rfl rfl hargs
  case eq | ne =>
    exact Overload.compare_computes h ha hb
      (fun _ hmn => Mnemonic.lanewise_equality rfl rfl rfl hmn) hargs
  case lt | le | gt | ge =>
    exact Overload.compare_computes h ha hb
      (fun _ hmn => Mnemonic.lanewise_numeric rfl rfl rfl rfl hmn) hargs
  all_goals
    exact Overload.lanewise_computes h ha hb
      (fun _ hmn => Mnemonic.lanewise_numeric rfl rfl rfl rfl hmn) hargs

theorem TernaryOp.computes {op : TernaryOp} (h : op.overload? a b c = some f)
    (hargs : σ.CarriesAll n [A, B, C] [a, b, c] [x, y, z]) (hdst : f.single = true ∨ n ≤ r) :
    (m.run σ (f.lines (.ofType (.temp r) f.result) [A, B, C] start)).Holds
      (.ofType (.temp r) f.result) f.result (op.value m a b c x y z) := by
  unfold overload? at h
  split_ifs at h with hs
  simp only [Bool.and_eq_true] at hs
  have ha := ValueType.valid_of_standard hs.1.1
  have hb := ValueType.valid_of_standard hs.1.2
  have hc := ValueType.valid_of_standard hs.2
  cases op
  case mad => exact Overload.multiplyAdd_computes h ha hb hc hargs
  case select => exact Overload.choice_computes h ha hb hc hargs
  case bitAlign | byteAlign => exact Overload.align_computes h ha hb hc rfl hargs hdst
  case bitInsert => exact Overload.bitInsert_computes h ha hb hc hargs
  case bitExtract => exact Overload.bitExtract_computes h ha hb hc hargs

end ShaderIL
