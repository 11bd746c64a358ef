import ShaderIL.Literal
import ShaderIL.Proofs.Lane.Select
import ShaderIL.Proofs.Number.Rounding

/-!
# Integer constants

A host constant becomes a component of an integer kind exactly if it is an integer in the range of the
kind (`Host.narrow_iff`); integers of the host are refused besides if they look like the mark of an
overflow. The conversions on the way wrap, truncate and round, so the point is that the way back
notices: an integer wrapped to 32 bits differs by a multiple of `2 ^ 32`, and rounding moves it by less
than that (`FloatFormat.nearest_near`).
-/

namespace ShaderIL

/-! ### Wrapping -/

namespace IntegerFormat

variable {f : IntegerFormat} {n : Int}

/-- The integers of a format. -/
def Contains (f : IntegerFormat) (n : Int) : Prop :=
  if f.signed then -(2 ^ f.bits : Nat) ≤ 2 * n ∧ 2 * n < (2 ^ f.bits : Nat)
  else 0 ≤ n ∧ n < (2 ^ f.bits : Nat)

instance (f : IntegerFormat) (n : Int) : Decidable (f.Contains n) := by
  unfold Contains
  infer_instance

theorem wrap_of_contains (h : f.Contains n) : f.wrap n = n := by
  unfold Contains at h
  unfold wrap
  rw [Nat.one_shiftLeft]
  split_ifs at h ⊢
  · exact Int.bmod_eq_of_le (by omega) (by omega)
  · exact Int.emod_eq_of_lt h.1 h.2

theorem contains_wrap (f : IntegerFormat) (n : Int) : f.Contains (f.wrap n) := by
  have hpos : 0 < 2 ^ f.bits := Nat.two_pow_pos f.bits
  unfold Contains wrap
  rw [Nat.one_shiftLeft]
  split_ifs
  · have hlow := Int.le_bmod (x := n) hpos
    have hhigh := Int.bmod_lt (x := n) hpos
    omega
  · exact ⟨Int.emod_nonneg n (by omega), Int.emod_lt_of_pos n (by omega)⟩

theorem wrap_emod (f : IntegerFormat) (n : Int) :
    f.wrap n % (2 ^ f.bits : Nat) = n % (2 ^ f.bits : Nat) := by
  unfold wrap
  rw [Nat.one_shiftLeft]
  split_ifs
  · exact Int.bmod_emod
  · exact Int.emod_emod_of_dvd n (dvd_refl _)

theorem Contains.bounds (hf : f.bits = 32) (h : f.Contains n) :
    -2147483648 ≤ n ∧ n ≤ 4294967295 := by
  unfold Contains at h
  rw [hf] at h
  split_ifs at h <;> omega

end IntegerFormat

/-! ### Narrowing -/

namespace Host

/-- The low 31 bits are all ones in a number that is not negative: the mark of an overflow. -/
def OverflowMark (n : Int) : Prop := 0 ≤ n ∧ n % 2147483648 = 2147483647

variable {target format : IntegerFormat} {n value : Int}

theorem lowOnes_iff (bits : Nat) (n : Int) :
    lowOnes bits n = true ↔ n % (2 ^ bits : Nat) = (2 ^ bits : Nat) - 1 := by
  rw [lowOnes, Nat.one_shiftLeft, beq_iff_eq]

/-- An integer that is not changed by wrapping it to a lane and back is one of the lane: a narrow host
type has no other integers of the same sign with the same low bits, and a wide one changes nothing on
the way back. -/
theorem eq_of_wrap (htarget : target.bits = 32) (hvalue : format.Contains value)
    (hsign : 0 ≤ value ↔ 0 ≤ target.wrap value) (hback : format.wrap (target.wrap value) = value) :
    target.wrap value = value := by
  have hbounds := (target.contains_wrap value).bounds htarget
  have hmod := target.wrap_emod value
  rw [htarget] at hmod
  generalize target.wrap value = c at *
  by_cases hwide : format.bits ≤ 32
  · have hpow : 2 ^ format.bits ≤ 2 ^ 32 := Nat.pow_le_pow_right Nat.two_pos hwide
    unfold IntegerFormat.Contains at hvalue
    split_ifs at hvalue <;> omega
  · have hpow : 2 ^ 33 ≤ 2 ^ format.bits := Nat.pow_le_pow_right Nat.two_pos (by omega)
    have hc : format.Contains c := by
      unfold IntegerFormat.Contains at hvalue ⊢
      split_ifs at hvalue ⊢ <;> omega
    rw [← hback, IntegerFormat.wrap_of_contains hc]

theorem narrowInteger_iff (htarget : target.bits = 32) (hvalue : format.Contains value) :
    narrowInteger target format value = some n ↔
      value = n ∧ target.Contains n ∧ ¬ OverflowMark n := by
  have hlow : lowOnes 31 value = true ↔ value % 2147483648 = 2147483647 := lowOnes_iff 31 value
  have hlong : lowOnes 63 value = true ↔
      value % 9223372036854775808 = 9223372036854775807 := lowOnes_iff 63 value
  constructor
  · intro h
    simp only [narrowInteger] at h
    split_ifs at h with _ hsign hback hmark
    simp only [bne_iff_ne, ne_eq, decide_eq_decide, not_not] at hsign hback
    simp only [Bool.and_eq_true, decide_eq_true_eq, hlow] at hmark
    have heq := eq_of_wrap htarget hvalue hsign hback
    have hn : target.wrap value = n := Option.some.inj h
    refine ⟨by omega, hn ▸ target.contains_wrap value, fun hm => hmark ?_⟩
    rw [← heq, hn]
    exact hm
  · rintro ⟨rfl, htc, hmark⟩
    have hbounds := htc.bounds htarget
    have h63 : (decide (0 ≤ value) && lowOnes 63 value) = false := by
      rw [Bool.and_eq_false_iff, ← Bool.not_eq_true, ← Bool.not_eq_true, hlong]
      simp only [decide_eq_true_eq]
      omega
    have h31 : (decide (0 ≤ value) && lowOnes 31 value) = false := by
      rw [Bool.and_eq_false_iff, ← Bool.not_eq_true, ← Bool.not_eq_true, hlow]
      simp only [decide_eq_true_eq, OverflowMark] at hmark ⊢
      omega
    simp only [narrowInteger, IntegerFormat.wrap_of_contains htc,
      IntegerFormat.wrap_of_contains hvalue, h63, h31, bne_self_eq_false, Bool.false_eq_true,
      if_false]

/-- A floating-point constant is narrowed exactly if it is an integer of the lane: what it is wrapped
to must be a multiple of `2 ^ 32` away, and what that is rounded to is nearer. -/
theorem narrowFloat_iff (htarget : target.bits = 32) {f : FloatFormat} (hf : f.Spans 32)
    {bits : Nat} : narrowFloat target f (f.decode bits) = some n ↔
      (f.decode bits).toRat? = some (n : ℚ) ∧ target.Contains n := by
  have hprecision := hf.precision
  constructor
  · intro h
    unfold narrowFloat at h
    cases htrunc : (f.decode bits).truncate with
    | none => simp [htrunc] at h
    | some m =>
      simp only [htrunc] at h
      split_ifs at h with hsign hsame
      have hn : target.wrap m = n := Option.some.inj h
      have hc := target.contains_wrap m
      have hmod := target.wrap_emod m
      rw [hn] at hsame hc hmod
      rw [htarget] at hmod
      have hbounds := hc.bounds htarget
      have habs : n.natAbs < 2 ^ 32 := by omega
      have hrat := (FloatValue.same_iff (FloatFormat.decode_ofInt hf habs)).mp (by simpa using hsame)
      have hm : m = f.nearest n := by
        have := FloatValue.truncate_of_int hrat
        rw [htrunc] at this
        exact Option.some.inj this
      have hnear := FloatFormat.nearest_near (by omega : 0 < f.precision) habs
      rw [abs_lt] at hnear
      have heq : f.nearest n = n := by omega
      exact ⟨heq ▸ hrat, hc⟩
  · rintro ⟨hrat, hc⟩
    have hbounds := hc.bounds htarget
    have habs : n.natAbs < 2 ^ 32 := by omega
    have hdecode := FloatFormat.decode_ofInt hf habs
    rw [FloatFormat.nearest_of_decode hprecision hrat] at hdecode
    have hsame := (FloatValue.same_iff hdecode).mpr hrat
    have hsign : (f.decode bits).nonneg = decide (0 ≤ n) := by
      rw [Bool.eq_iff_iff, FloatValue.nonneg_iff hrat, decide_eq_true_eq]
      exact_mod_cast Iff.rfl
    simp [narrowFloat, FloatValue.truncate_of_int hrat, IntegerFormat.wrap_of_contains hc, hsign,
      hsame]

/-! ### Constants of an integer kind -/

/-- The number a constant stands for. -/
def value? : Host → Option ℚ
  | integer _ value => some value
  | single bits => (FloatFormat.single.decode bits.toNat).toRat?
  | double bits => (FloatFormat.double.decode bits.toNat).toRat?

/-- The constant is of an integer type. -/
def isInteger : Host → Bool
  | integer _ _ => true
  | single _ | double _ => false

/-- A constant of an integer type is one of its integers. -/
def Proper : Host → Prop
  | integer format value => format.Contains value
  | single _ | double _ => True

theorem narrow_iff (htarget : target.bits = 32) {k : Host} (hk : k.Proper) :
    k.narrow target = some n ↔ k.value? = some (n : ℚ) ∧ target.Contains n ∧
      (k.isInteger = true → ¬ OverflowMark n) := by
  cases k with
  | integer format value =>
    have hvalue : (some (value : ℚ) = some (n : ℚ)) ↔ value = n := by simp
    rw [narrow, narrowInteger_iff htarget hk, value?, hvalue]
    simp [isInteger]
  | single bits => simp [narrow, narrowFloat_iff htarget FloatFormat.single_spans, value?, isInteger]
  | double bits => simp [narrow, narrowFloat_iff htarget FloatFormat.double_spans, value?, isInteger]

end Host

namespace Kind

/-- The integers of a kind. -/
def Admits : Kind → Int → Prop
  | int, n => -2147483648 ≤ n ∧ n ≤ 2147483647
  | uint, n => 0 ≤ n ∧ n ≤ 4294967295
  | _, _ => False

/-- The integer a word stands for, signed or unsigned. -/
def read : Kind → UInt32 → Int
  | int, w => w.toInt32.toInt
  | _, w => w.toNat

theorem admits_int {n : Int} : Kind.int.Admits n ↔ IntegerFormat.int32.Contains n := by
  change _ ↔ -((2 ^ 32 : Nat) : Int) ≤ 2 * n ∧ 2 * n < (2 ^ 32 : Nat)
  unfold Admits
  omega

theorem admits_uint {n : Int} : Kind.uint.Admits n ↔ IntegerFormat.uint32.Contains n := by
  change _ ↔ 0 ≤ n ∧ n < (2 ^ 32 : Nat)
  unfold Admits
  omega

theorem read_int {n : Int} (h : Kind.int.Admits n) :
    Kind.int.read (UInt32.ofNat (n % 4294967296).toNat) = n := by
  unfold Admits at h
  have hlt : (n % 4294967296).toNat < 4294967296 := by omega
  change (UInt32.ofNat (n % 4294967296).toNat).toBitVec.toInt = n
  rw [BitVec.toInt_eq_toNat_bmod]
  change ((UInt32.ofNat (n % 4294967296).toNat).toNat : Int).bmod 4294967296 = n
  have hmod : (n % 4294967296).bmod 4294967296 = n.bmod 4294967296 :=
    Int.emod_bmod n 4294967296
  rw [UInt32.toNat_ofNat_of_lt' hlt, Int.toNat_of_nonneg (by omega), hmod]
  exact Int.bmod_eq_of_le (by omega) (by omega)

theorem read_uint {n : Int} (h : Kind.uint.Admits n) :
    Kind.uint.read (UInt32.ofNat n.toNat) = n := by
  unfold Admits at h
  have hlt : n.toNat < 4294967296 := by omega
  change ((UInt32.ofNat n.toNat).toNat : Int) = n
  rw [UInt32.toNat_ofNat_of_lt' hlt, Int.toNat_of_nonneg h.1]

end Kind

namespace Host

variable {kind : Kind} {k : Host} {n : Int}

/-- The constant is an integer of the kind, and if it is of an integer type, no mark of an overflow. -/
structure Lifts (kind : Kind) (k : Host) (n : Int) : Prop where
  value : k.value? = some (n : ℚ)
  admitted : kind.Admits n
  unmarked : k.isInteger = true → ¬ OverflowMark n

theorem words_of_lifts (hk : k.Proper) (h : k.Lifts kind n) :
    ∃ w, k.words kind = .ok [w] ∧ kind.read w = n := by
  cases kind with
  | int =>
    have hnarrow : k.narrow .int32 = some n :=
      (narrow_iff rfl hk).mpr ⟨h.value, Kind.admits_int.mp h.admitted, h.unmarked⟩
    exact ⟨_, by simp only [words, hnarrow], Kind.read_int h.admitted⟩
  | uint =>
    have hnarrow : k.narrow .uint32 = some n :=
      (narrow_iff rfl hk).mpr ⟨h.value, Kind.admits_uint.mp h.admitted, h.unmarked⟩
    exact ⟨_, by simp only [words, hnarrow], Kind.read_uint h.admitted⟩
  | _ => exact h.admitted.elim

theorem lifts_of_words (hk : k.Proper) (hkind : kind = .int ∨ kind = .uint) {ws : List UInt32}
    (h : k.words kind = .ok ws) : ∃ n, k.Lifts kind n := by
  rcases hkind with rfl | rfl
  · cases hn : k.narrow .int32 with
    | none => simp [words, hn] at h
    | some n =>
      obtain ⟨hvalue, hc, hmark⟩ := (narrow_iff rfl hk).mp hn
      exact ⟨n, hvalue, Kind.admits_int.mpr hc, hmark⟩
  · cases hn : k.narrow .uint32 with
    | none => simp [words, hn] at h
    | some n =>
      obtain ⟨hvalue, hc, hmark⟩ := (narrow_iff rfl hk).mp hn
      exact ⟨n, hvalue, Kind.admits_uint.mpr hc, hmark⟩

end Host

/-! ### Constants of any kind -/

/-- The value is no infinity and no number beyond the largest single. -/
def FloatValue.WithinSingle : FloatValue → Prop
  | finite _ m e => (m * 2 ^ e : ℚ) ≤ 16777215 * 2 ^ (104 : Int)
  | infinity _ => False
  | nan _ _ => True

theorem FloatValue.withinSingle_iff (v : FloatValue) :
    v.WithinSingle ↔ v.exceeds 0xffffff 104 = false := by
  cases v with
  | infinity | nan => simp [WithinSingle, exceeds]
  | finite negative m e =>
    have hlt := shiftLeft_lt_iff 0xffffff m 104 e
    rw [WithinSingle, exceeds, decide_eq_false_iff_not, hlt, not_lt]
    push_cast
    rfl

namespace Host

/-- What a kind can represent of the constants: integers in its range that are no mark of an overflow,
singles up to the largest, anything as a double or a truth value. -/
def Representable (kind : Kind) (k : Host) : Prop :=
  match kind with
  | .int | .uint => ∃ n, k.Lifts kind n
  | .float => (FloatFormat.double.decode k.doubleBits).WithinSingle
  | .double | .bool => True
  | .invalid | .other _ => False

/-- A constant has words as a component of a kind exactly if the kind represents it. -/
theorem words_ok_iff {kind : Kind} {k : Host} (hk : k.Proper) :
    (∃ ws, k.words kind = .ok ws) ↔ k.Representable kind := by
  have hlifts : kind = .int ∨ kind = .uint →
      ((∃ ws, k.words kind = .ok ws) ↔ ∃ n, k.Lifts kind n) := by
    intro hkind
    constructor
    · rintro ⟨ws, h⟩
      exact lifts_of_words hk hkind h
    · rintro ⟨n, h⟩
      obtain ⟨w, hw, -⟩ := words_of_lifts hk h
      exact ⟨[w], hw⟩
  cases kind with
  | int => exact hlifts (.inl rfl)
  | uint => exact hlifts (.inr rfl)
  | float =>
    rw [Representable, FloatValue.withinSingle_iff]
    unfold words singleWord
    by_cases h : (FloatFormat.double.decode k.doubleBits).exceeds 0xffffff 104 = true
    · simp [h, Except.map]
    · simp [h, Except.map]
  | double | bool => simp [words, Representable]
  | invalid | other => simp [words, Representable]

end Host

/-! ### Literals -/

namespace Literal

variable {kind : Kind} {ks : List Host}

/-- A list of constants that can all be lifted is one word for each. -/
theorem wordsOf_of_lifts : ∀ ks : List Host, (∀ k ∈ ks, k.Proper) →
    (∀ k ∈ ks, ∃ n, k.Lifts kind n) → ∃ ws, wordsOf kind ks = .ok ws ∧
      List.Forall₂ (fun k w => k.value? = some (kind.read w : ℚ)) ks ws
  | [], _, _ => ⟨[], rfl, .nil⟩
  | k :: ks, hproper, hlifts => by
    obtain ⟨n, hn⟩ := hlifts k (by simp)
    obtain ⟨w, hw, hread⟩ := Host.words_of_lifts (hproper k (by simp)) hn
    obtain ⟨ws, hws, hall⟩ := wordsOf_of_lifts ks (fun y hy => hproper y (by simp [hy]))
      fun y hy => hlifts y (by simp [hy])
    refine ⟨w :: ws, ?_, .cons (by rw [hread]; exact hn.value) hall⟩
    rw [wordsOf, hw, hws]
    rfl

theorem lifts_of_wordsOf (hkind : kind = .int ∨ kind = .uint) : ∀ {ks : List Host}
    {ws : List UInt32}, (∀ k ∈ ks, k.Proper) → wordsOf kind ks = .ok ws →
      ∀ k ∈ ks, ∃ n, k.Lifts kind n
  | [], _, _, _ => by simp
  | k :: ks, ws, hproper, h => by
    cases hw : k.words kind with
    | error cause =>
      rw [wordsOf, hw] at h
      cases h
    | ok w =>
      cases hrest : wordsOf kind ks with
      | error cause =>
        rw [wordsOf, hw, hrest] at h
        cases h
      | ok rest =>
        have hall := lifts_of_wordsOf hkind (fun y hy => hproper y (by simp [hy])) hrest
        simpa using ⟨Host.lifts_of_words (hproper k (by simp)) hkind hw, hall⟩

/-- A literal of an integer kind has no error exactly if it has one value for each component and each
can be lifted. -/
theorem ofValues_error_iff {t : ValueType} (ht : t.valid = true)
    (hkind : t.kind = .int ∨ t.kind = .uint) (hproper : ∀ k ∈ ks, k.Proper) :
    (ofValues t ks).error = none ↔
      ks.length = t.components ∧ ∀ k ∈ ks, ∃ n, k.Lifts t.kind n := by
  constructor
  · intro h
    simp only [ofValues, ht, Bool.not_true, Bool.false_eq_true, if_false, bne_iff_ne, ne_eq] at h
    split_ifs at h with hlen
    · cases hw : wordsOf t.kind ks with
      | error cause =>
        rw [hw] at h
        cases h
      | ok ws => exact ⟨hlen, lifts_of_wordsOf hkind hproper hw⟩
    · cases h
  · rintro ⟨hlen, hlifts⟩
    obtain ⟨ws, hws, -⟩ := wordsOf_of_lifts ks hproper hlifts
    simp [ofValues, ht, hlen, hws]

/-- Lane `i` of a register holds word `i` of those that are repeated in it. -/
theorem getElem?_cycle {ws : List UInt32} (hws : ws ≠ []) {i : Nat} (hi : i < 4) :
    (Quad.cycle ws).toList[i]? = ws[i % ws.length]? := by
  have hpos := List.length_pos_of_ne_nil hws
  have hword : ∀ j, some (ws.getD (j % ws.length) 0) = ws[j % ws.length]? := by
    intro j
    rw [List.getD_eq_getElem?_getD, List.getElem?_eq_getElem (Nat.mod_lt j hpos), Option.getD_some]
  rw [← hword i]
  have hcases : i = 0 ∨ i = 1 ∨ i = 2 ∨ i = 3 := by omega
  rcases hcases with rfl | rfl | rfl | rfl <;> rfl

/-- The lanes of a literal of an integer kind read as its values, in turn. -/
theorem ofValues_lanes {t : ValueType} (ht : t.valid = true)
    (hkind : t.kind = .int ∨ t.kind = .uint) (hproper : ∀ k ∈ ks, k.Proper)
    (h : (ofValues t ks).error = none) {i : Nat} (hi : i < 4) :
    ∃ k w, ks[i % t.components]? = some k ∧ (ofValues t ks).bits.toList[i]? = some w ∧
      k.value? = some (t.kind.read w : ℚ) := by
  obtain ⟨hlen, hlifts⟩ := (ofValues_error_iff ht hkind hproper).mp h
  obtain ⟨ws, hws, hall⟩ := wordsOf_of_lifts ks hproper hlifts
  have hpos := ValueType.components_pos ht
  have hlenws := hall.length_eq
  have hne : ws ≠ [] := by
    rintro rfl
    rw [List.length_nil] at hlenws
    omega
  have hbits : (ofValues t ks).bits = Quad.cycle ws := by simp [ofValues, ht, hlen, hws]
  have hlt : i % t.components < ks.length := by
    rw [hlen]
    exact Nat.mod_lt i hpos
  have hltw : i % t.components < ws.length := hlenws ▸ hlt
  refine ⟨ks[i % t.components], ws[i % t.components], List.getElem?_eq_getElem hlt, ?_,
    hall.get hlt hltw⟩
  rw [hbits, getElem?_cycle hne hi, ← hlenws, hlen, List.getElem?_eq_getElem hltw]

/-- **Lifting to an integer kind is exact.** A constant becomes a scalar literal without an error
exactly if it is an integer of the kind and, if it is of an integer type, no mark of an overflow; then
every lane reads as the constant. A list of values becomes a literal exactly if it has one for each
component and each of them can be lifted; then lane `i` reads as value `i` modulo the width. -/
theorem integer_literals_exact {t : ValueType} (ht : t.valid = true)
    (hkind : t.kind = .int ∨ t.kind = .uint) :
    (t = .int1 ∨ t = .uint1 → ∀ k : Host, k.Proper →
      ((const t k).error = none ↔ ∃ n, k.Lifts t.kind n) ∧
        ((const t k).error = none → ∀ w ∈ (const t k).bits.toList,
          k.value? = some (t.kind.read w : ℚ))) ∧
    ∀ ks : List Host, (∀ k ∈ ks, k.Proper) →
      ((ofValues t ks).error = none ↔
        ks.length = t.components ∧ ∀ k ∈ ks, ∃ n, k.Lifts t.kind n) ∧
        ((ofValues t ks).error = none → ∀ i < 4, ∃ k w, ks[i % t.components]? = some k ∧
          (ofValues t ks).bits.toList[i]? = some w ∧ k.value? = some (t.kind.read w : ℚ)) := by
  refine ⟨fun hscalar k hk => ?_, fun ks hks => ⟨ofValues_error_iff ht hkind hks,
    fun h i hi => ofValues_lanes ht hkind hks h hi⟩⟩
  have hcomponents : t.components = 1 := by
    rcases hscalar with rfl | rfl <;> rfl
  have hconst : const t k = ofValues t [k] := by rw [const, hcomponents]; rfl
  have hproper : ∀ y ∈ [k], y.Proper := by simpa using hk
  rw [hconst]
  refine ⟨by simp [ofValues_error_iff ht hkind hproper, hcomponents], fun h w hw => ?_⟩
  obtain ⟨i, hi, rfl⟩ := List.getElem_of_mem hw
  obtain ⟨k', w', hk', hw', hvalue⟩ := ofValues_lanes ht hkind hproper h (i := i) hi
  rw [hcomponents, Nat.mod_one] at hk'
  rw [List.getElem?_eq_getElem hi] at hw'
  cases hk'
  cases hw'
  exact hvalue

/-- The premises can be met: lane 3 of a signed pair repeats its second value, the single `7`; the
largest signed integer looks like an overflow as an integer and can be lifted as a double. -/
theorem literals_of_byte_and_single :
    (Host.single 0x40E00000).value? = some (7 : ℚ) ∧
      (∃ n, (Host.double 0x41DFFFFFFFC00000).Lifts .int n) ∧
      ¬ ∃ n, (Host.integer ⟨true, 32⟩ 2147483647).Lifts .int n := by
  have hbyte : (⟨true, 8⟩ : IntegerFormat).Contains (-3) := by decide
  have hlong : (⟨true, 32⟩ : IntegerFormat).Contains 2147483647 := by decide
  have hpair := (integer_literals_exact (t := .int2) rfl (.inl rfl)).2
    [.integer ⟨true, 8⟩ (-3), .single 0x40E00000] (by simpa [Host.Proper] using hbyte)
  have hone := (integer_literals_exact (t := .int1) rfl (.inl rfl)).1 (.inl rfl)
  refine ⟨?_, (hone (.double 0x41DFFFFFFFC00000) trivial).1.mp (by decide), fun h => ?_⟩
  · obtain ⟨k, w, hk, hw, hvalue⟩ := hpair.2 (by decide) 3 (by decide)
    cases hk
    cases hw
    exact hvalue
  · exact absurd ((hone (.integer ⟨true, 32⟩ 2147483647) hlong).1.mpr h) (by decide)

end Literal

end ShaderIL
