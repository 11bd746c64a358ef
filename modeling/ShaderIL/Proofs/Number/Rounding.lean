import Mathlib.Tactic
import ShaderIL.Number.FloatFormat

/-!
# Integers in floating-point formats

`FloatValue.toRat?` is the number a finite value stands for. In these terms `same` compares numbers,
`truncate` gives back an integer, and a pattern made from an integer stands for the integer that
`FloatFormat.nearest` names: it is no further away than half of the last place kept, and it is the
integer itself if some pattern of the format stands for that.
-/

namespace ShaderIL

namespace FloatValue

/-- The number a finite value stands for. -/
def toRat? : FloatValue → Option ℚ
  | finite negative mantissa exponent =>
    some ((if negative then -1 else 1) * (mantissa * 2 ^ exponent))
  | infinity _ | nan _ _ => none

/-- To shift by the excess of one exponent over another is to take out the smaller one. -/
theorem cast_shiftLeft (m : Nat) (e d : Int) :
    ((m <<< (e - d).toNat : Nat) : ℚ) = m * 2 ^ e / 2 ^ min e d := by
  have hshift : ((e - d).toNat : Int) = e - min e d := by omega
  rw [Nat.shiftLeft_eq, mul_div_assoc, ← zpow_sub₀ two_ne_zero, ← hshift, zpow_natCast]
  push_cast
  rfl

theorem shiftLeft_eq_iff (m n : Nat) (e d : Int) :
    m <<< (e - d).toNat = n <<< (d - e).toNat ↔ (m * 2 ^ e : ℚ) = n * 2 ^ d := by
  have hscale : (2 : ℚ) ^ min e d ≠ 0 := by positivity
  rw [← Nat.cast_inj (R := ℚ), cast_shiftLeft, cast_shiftLeft, min_comm d e, div_left_inj' hscale]

theorem shiftLeft_lt_iff (m n : Nat) (e d : Int) :
    m <<< (e - d).toNat < n <<< (d - e).toNat ↔ (m * 2 ^ e : ℚ) < n * 2 ^ d := by
  have hscale : (0 : ℚ) < 2 ^ min e d := by positivity
  rw [← Nat.cast_lt (α := ℚ), cast_shiftLeft, cast_shiftLeft, min_comm d e,
    div_lt_div_iff_of_pos_right hscale]

theorem magnitude_eq_zero {m : Nat} {e : Int} : (m * 2 ^ e : ℚ) = 0 ↔ m = 0 := by
  have he : (2 : ℚ) ^ e ≠ 0 := by positivity
  simp [he]

variable {a b v : FloatValue} {q : ℚ}

/-- Values are the same if they stand for the same number. -/
theorem same_iff (ha : a.toRat? = some q) : a.same b = true ↔ b.toRat? = some q := by
  cases a with
  | infinity | nan => cases ha
  | finite n₁ m₁ e₁ =>
    cases ha
    cases b with
    | infinity | nan => simp [same, toRat?]
    | finite n₂ m₂ e₂ =>
      have hx : (0 : ℚ) ≤ m₁ * 2 ^ e₁ := by positivity
      have hy : (0 : ℚ) ≤ m₂ * 2 ^ e₂ := by positivity
      have hx0 := magnitude_eq_zero (m := m₁) (e := e₁)
      have hy0 := magnitude_eq_zero (m := m₂) (e := e₂)
      simp only [same, toRat?, Bool.or_eq_true, Bool.and_eq_true, beq_iff_eq, shiftLeft_eq_iff,
        Option.some.injEq, ← hx0, ← hy0]
      generalize (m₁ * 2 ^ e₁ : ℚ) = x at hx
      generalize (m₂ * 2 ^ e₂ : ℚ) = y at hy
      -- numbers of different signs are equal if both are zero
      cases n₁ <;> cases n₂ <;> simp only [if_true, Bool.false_eq_true, if_false, true_and,
        false_and, or_false, one_mul, neg_one_mul, reduceCtorEq, neg_inj]
      · exact ⟨fun h => h.elim (fun h => by rw [h.1, h.2]) Eq.symm, fun h => .inr h.symm⟩
      · exact ⟨fun h => by rw [h.1, h.2, neg_zero], fun h => ⟨by linarith, by linarith⟩⟩
      · exact ⟨fun h => by rw [h.1, h.2, neg_zero], fun h => ⟨by linarith, by linarith⟩⟩
      · exact ⟨fun h => h.elim (fun h => by rw [h.1, h.2]) Eq.symm, fun h => .inr h.symm⟩

theorem nonneg_iff (h : v.toRat? = some q) : v.nonneg = true ↔ 0 ≤ q := by
  cases v with
  | infinity | nan => cases h
  | finite n m e =>
    cases h
    have hx : (0 : ℚ) ≤ m * 2 ^ e := by positivity
    have hx0 := magnitude_eq_zero (m := m) (e := e)
    simp only [nonneg, Bool.or_eq_true, Bool.not_eq_true', beq_iff_eq, ← hx0]
    generalize (m * 2 ^ e : ℚ) = x at hx
    cases n
    · simp [hx]
    · simp only [Bool.true_eq_false, false_or, if_true, neg_one_mul, Left.nonneg_neg_iff]
      exact ⟨le_of_eq, fun h => le_antisymm h hx⟩

/-- A value that is an integer: its sign and its magnitude, the powers of two cleared. -/
theorem finite_eq_int {negative : Bool} {m : Nat} {e n : Int}
    (h : (finite negative m e).toRat? = some (n : ℚ)) :
    (if negative then -(n.natAbs : Int) else n.natAbs) = n ∧
      m <<< e.toNat = n.natAbs <<< (-e).toNat := by
  have hx : (0 : ℚ) ≤ m * 2 ^ e := by positivity
  have hn : (if negative then -1 else 1) * (m * 2 ^ e : ℚ) = n := Option.some.inj h
  have habs : (m * 2 ^ e : ℚ) = (n.natAbs : ℚ) := by
    rw [Nat.cast_natAbs, Int.cast_abs, ← hn, abs_mul, abs_of_nonneg hx]
    cases negative <;> simp
  have hshift : m <<< (e - 0).toNat = n.natAbs <<< (0 - e).toNat := by
    rw [shiftLeft_eq_iff, habs, zpow_zero, mul_one]
  refine ⟨?_, by simpa using hshift⟩
  cases negative
  · have hpos : (0 : ℚ) ≤ n := by simpa [← hn] using hx
    have hpos' : 0 ≤ n := by exact_mod_cast hpos
    simp only [Bool.false_eq_true, if_false]
    omega
  · have hneg : (n : ℚ) ≤ 0 := by simpa [← hn] using hx
    have hneg' : n ≤ 0 := by exact_mod_cast hneg
    simp only [if_true]
    omega

theorem truncate_of_int {n : Int} (h : v.toRat? = some (n : ℚ)) : v.truncate = some n := by
  cases v with
  | infinity | nan => cases h
  | finite negative m e =>
    obtain ⟨hsign, hmag⟩ := finite_eq_int h
    have hm : (if 0 ≤ e then m <<< e.toNat else m >>> (-e).toNat) = n.natAbs := by
      split_ifs with he
      · rw [hmag, Int.toNat_of_nonpos (by omega), Nat.shiftLeft_zero]
      · rw [Int.toNat_of_nonpos (by omega), Nat.shiftLeft_zero] at hmag
        rw [hmag, Nat.shiftLeft_shiftRight]
    simp only [truncate, hm, hsign]

end FloatValue

/-! ### Rounded quotients -/

theorem roundDiv_near (num : Nat) {den : Nat} (hden : 0 < den) :
    2 * (roundDiv num den * den) ≤ 2 * num + den ∧ 2 * num ≤ 2 * (roundDiv num den * den) + den := by
  have hdiv := Nat.div_add_mod num den
  have hmod := Nat.mod_lt num hden
  have hcomm : num / den * den = den * (num / den) := Nat.mul_comm ..
  simp only [roundDiv]
  split_ifs with hlow hhigh
  · omega
  · rw [Nat.add_mul, one_mul]
    omega
  · have hodd : num / den % 2 = 0 ∨ num / den % 2 = 1 := by omega
    rcases hodd with hodd | hodd <;> rw [hodd, Nat.add_mul] <;> omega

theorem roundDiv_bounds (num den : Nat) :
    num / den ≤ roundDiv num den ∧ roundDiv num den ≤ num / den + 1 := by
  simp only [roundDiv]
  split_ifs <;> omega

theorem roundDiv_of_dvd {num den : Nat} (hden : 0 < den) (h : den ∣ num) :
    roundDiv num den * den = num := by
  have hmod := Nat.mod_eq_zero_of_dvd h
  simp only [roundDiv, hmod, Nat.mul_zero, hden, if_true]
  exact Nat.div_mul_cancel h

theorem roundDiv_one (num : Nat) : roundDiv num 1 = num := by
  simpa using roundDiv_of_dvd Nat.one_pos (one_dvd num)

namespace FloatFormat

variable {f : FloatFormat} {width : Nat}

/-! ### Fields of a pattern -/

/-- The fields of a packed pattern are those it was made of. -/
theorem fields_pack (f : FloatFormat) (negative : Bool) {exponent fraction : Nat}
    (he : exponent < 2 ^ f.exponentBits) (hm : fraction < 2 ^ f.fractionBits) :
    f.pack negative exponent fraction % 2 ^ f.fractionBits = fraction ∧
      f.pack negative exponent fraction / 2 ^ f.fractionBits % 2 ^ f.exponentBits = exponent ∧
      (f.pack negative exponent fraction).testBit (f.fractionBits + f.exponentBits) = negative := by
  have hpos := Nat.two_pow_pos f.fractionBits
  have hpos' := Nat.two_pow_pos f.exponentBits
  have hpack : f.pack negative exponent fraction =
      ((if negative then 1 else 0) * 2 ^ f.exponentBits + exponent) * 2 ^ f.fractionBits +
        fraction := by
    rw [pack, Nat.shiftLeft_eq, Nat.shiftLeft_eq, Nat.pow_add]
    cases negative <;> simp
    ring
  have hhigh : f.pack negative exponent fraction / 2 ^ f.fractionBits =
      (if negative then 1 else 0) * 2 ^ f.exponentBits + exponent := by
    rw [hpack, Nat.add_comm, Nat.add_mul_div_right _ _ hpos, Nat.div_eq_of_lt hm, Nat.zero_add]
  refine ⟨?_, ?_, ?_⟩
  · rw [hpack, Nat.mul_add_mod_self_right, Nat.mod_eq_of_lt hm]
  · rw [hhigh, Nat.mul_add_mod_self_right, Nat.mod_eq_of_lt he]
  · rw [Nat.testBit_eq_decide_div_mod_eq, Nat.pow_add, ← Nat.div_div_eq_div_mul, hhigh,
      Nat.add_comm, Nat.add_mul_div_right _ _ hpos', Nat.div_eq_of_lt he]
    cases negative <;> rfl

theorem decode_pack (f : FloatFormat) (negative : Bool) {exponent fraction : Nat}
    (h0 : exponent ≠ 0) (he : exponent < f.specialExponent) (hm : fraction < 2 ^ f.fractionBits) :
    f.decode (f.pack negative exponent fraction) =
      .finite negative (fraction + 2 ^ f.fractionBits) (f.minExponent + exponent - 1) := by
  have hspecial : f.specialExponent = 2 ^ f.exponentBits - 1 := by
    rw [specialExponent, Nat.one_shiftLeft]
  have hlt : exponent < 2 ^ f.exponentBits := by omega
  obtain ⟨hfraction, hexponent, hsign⟩ := f.fields_pack negative hlt hm
  simp only [decode, Nat.shiftRight_eq_div_pow, Nat.one_shiftLeft, hfraction, hexponent, hsign,
    beq_iff_eq, h0, he.ne, if_false]

theorem decode_pack_zero (negative : Bool) (h : 0 < f.specialExponent) :
    (f.decode (f.pack negative 0 0)).toRat? = some 0 := by
  obtain ⟨hfraction, hexponent, hsign⟩ :=
    f.fields_pack negative (Nat.two_pow_pos f.exponentBits) (Nat.two_pow_pos f.fractionBits)
  simp only [decode, Nat.shiftRight_eq_div_pow, Nat.one_shiftLeft, hfraction, hexponent, hsign,
    beq_iff_eq, h.ne, if_false, if_true]
  simp [FloatValue.toRat?]

theorem mantissa_lt {bits m : Nat} {negative : Bool} {e : Int}
    (h : f.decode bits = .finite negative m e) : m < 2 ^ (f.fractionBits + 1) := by
  have hlt := Nat.mod_lt bits (Nat.two_pow_pos f.fractionBits)
  simp only [decode, Nat.one_shiftLeft] at h
  rw [Nat.pow_succ]
  split_ifs at h <;> cases h <;> omega

/-! ### Rounding -/

/-- A mantissa in range at its place, or one above the range, is what the rounded pattern stands for:
the carry moves the place. -/
theorem decode_round {negative : Bool} {mantissa m : Nat} {e place : Int} (hne : mantissa ≠ 0)
    (hplace : max (e + (mantissa.log2 + 1 : Nat) - (f.precision : Nat)) f.minExponent = place)
    (hm : (if place ≤ e then mantissa <<< (e - place).toNat
      else roundDiv mantissa (2 ^ (place - e).toNat)) = m)
    (hprecision : f.fractionBits + 1 = f.precision) (hlow : 2 ^ f.fractionBits ≤ m)
    (hhigh : m ≤ 2 ^ f.precision) (hspecial : place - f.minExponent + 2 < f.specialExponent) :
    (f.decode (f.round negative mantissa e)).toRat? =
      some ((if negative then -1 else 1) * (m * 2 ^ place : ℚ)) := by
  have hpos := Nat.two_pow_pos f.fractionBits
  have hpow : 2 ^ f.precision = 2 ^ f.fractionBits * 2 := by rw [← hprecision, Nat.pow_succ]
  have hmin : f.minExponent ≤ place := hplace ▸ le_max_right _ _
  simp only [round, hplace, hm, Nat.one_shiftLeft, beq_iff_eq, hne, if_false]
  by_cases hcarry : m = 2 ^ f.precision
  · have hfield : ¬ f.specialExponent ≤ (place - f.minExponent).toNat + 1 + 1 := by omega
    simp only [hcarry, if_true, lt_irrefl, if_false, hfield, Nat.sub_self]
    rw [f.decode_pack negative (by omega) (by omega) hpos, FloatValue.toRat?]
    have hexp : f.minExponent + ((place - f.minExponent).toNat + 1 + 1 : Nat) - 1 = place + 1 := by
      omega
    rw [hexp, zpow_add_one₀ two_ne_zero, hpow]
    push_cast
    ring_nf
  · have hfield : ¬ f.specialExponent ≤ (place - f.minExponent).toNat + 0 + 1 := by omega
    have hnormal : ¬ m < 2 ^ f.fractionBits := by omega
    simp only [hcarry, if_false, hnormal, hfield]
    rw [f.decode_pack negative (by omega) (by omega) (by omega), FloatValue.toRat?]
    have hexp : f.minExponent + ((place - f.minExponent).toNat + 0 + 1 : Nat) - 1 = place := by
      omega
    rw [hexp, Nat.sub_add_cancel hlow]

/-- Integers of the given number of bits are normal numbers of the format. -/
structure Spans (f : FloatFormat) (width : Nat) : Prop where
  precision : f.fractionBits + 1 = f.precision
  small : f.minExponent ≤ 1 - (f.precision : Int)
  large : (width : Int) - f.precision - f.minExponent + 2 < f.specialExponent

theorem single_spans : single.Spans 32 := ⟨by decide, by decide, by decide⟩

theorem double_spans : double.Spans 32 := ⟨by decide, by decide, by decide⟩

/-- The number of bits of an integer that do not fit. -/
def dropped (f : FloatFormat) (n : Nat) : Nat := n.log2 + 1 - f.precision

/-- The magnitude in the format nearest to an integer. -/
def nearestNat (f : FloatFormat) (n : Nat) : Nat :=
  roundDiv n (2 ^ f.dropped n) * 2 ^ f.dropped n

/-- The mantissa of an integer, shifted up to the full precision. -/
theorem mantissa_range (hprecision : f.fractionBits + 1 = f.precision) {n : Nat} (hn : n ≠ 0) :
    2 ^ f.fractionBits ≤ roundDiv n (2 ^ f.dropped n) * 2 ^ (f.precision - (n.log2 + 1)) ∧
      roundDiv n (2 ^ f.dropped n) * 2 ^ (f.precision - (n.log2 + 1)) ≤ 2 ^ f.precision := by
  have hlow := Nat.log2_self_le hn
  have hhigh := Nat.lt_log2_self (n := n)
  have hdropped : f.dropped n = n.log2 + 1 - f.precision := rfl
  generalize n.log2 = l at *
  rw [hdropped]
  by_cases h : l + 1 ≤ f.precision
  · obtain ⟨j, hj⟩ := Nat.exists_eq_add_of_le h
    have hfraction : f.fractionBits = l + j := by omega
    rw [hfraction, hj, Nat.add_sub_cancel_left, Nat.sub_eq_zero_of_le (by omega), Nat.pow_zero,
      roundDiv_one, Nat.pow_add, Nat.pow_add]
    exact ⟨Nat.mul_le_mul_right _ hlow, Nat.mul_le_mul_right _ hhigh.le⟩
  · obtain ⟨k, hk⟩ := Nat.exists_eq_add_of_le (Nat.le_of_not_le h)
    have hl : l = f.fractionBits + k := by omega
    have hpos := Nat.two_pow_pos k
    have hge : 2 ^ f.fractionBits ≤ n / 2 ^ k := by
      rw [Nat.le_div_iff_mul_le hpos, ← Nat.pow_add, ← hl]
      exact hlow
    have hlt : n / 2 ^ k < 2 ^ f.precision := by
      rw [Nat.div_lt_iff_lt_mul hpos, ← Nat.pow_add, ← hk]
      exact hhigh
    have hround := roundDiv_bounds n (2 ^ k)
    rw [hk, Nat.add_sub_cancel_left, Nat.sub_eq_zero_of_le (by omega), Nat.pow_zero, Nat.mul_one]
    omega

theorem decode_round_nat (hf : f.Spans width) (negative : Bool) {n : Nat} (hn : n < 2 ^ width) :
    (f.decode (f.round negative n 0)).toRat? =
      some ((if negative then -1 else 1) * (f.nearestNat n : ℚ)) := by
  have hprecision := hf.precision
  have hsmall := hf.small
  have hlarge := hf.large
  by_cases h0 : n = 0
  · have hround : f.round negative n 0 = f.pack negative 0 0 := by simp [round, h0]
    have hnearest : f.nearestNat n = 0 := by
      rw [nearestNat, roundDiv_of_dvd (Nat.two_pow_pos _) (h0 ▸ dvd_zero _), h0]
    rw [hround, decode_pack_zero negative (by omega), hnearest, Nat.cast_zero, mul_zero]
  · have hlog : n.log2 < width := (Nat.log2_lt h0).mpr hn
    obtain ⟨hlow, hhigh⟩ := mantissa_range hprecision h0
    have hplace : max ((0 : Int) + (n.log2 + 1 : Nat) - (f.precision : Nat)) f.minExponent =
        ((n.log2 + 1 : Nat) : Int) - f.precision := by
      rw [zero_add]
      exact max_eq_left (by omega)
    have hdropped : f.dropped n = n.log2 + 1 - f.precision := rfl
    have hshift : ((n.log2 + 1 : Nat) : Int) - f.precision =
        f.dropped n - (f.precision - (n.log2 + 1) : Nat) := by omega
    have hm : (if ((n.log2 + 1 : Nat) : Int) - f.precision ≤ 0 then
        n <<< (0 - (((n.log2 + 1 : Nat) : Int) - f.precision)).toNat
        else roundDiv n (2 ^ ((((n.log2 + 1 : Nat) : Int) - f.precision) - 0).toNat)) =
          roundDiv n (2 ^ f.dropped n) * 2 ^ (f.precision - (n.log2 + 1)) := by
      split_ifs with hle
      · have hzero : f.dropped n = 0 := by omega
        rw [hzero, Nat.pow_zero, roundDiv_one, Nat.shiftLeft_eq]
        congr 2
        omega
      · have hzero : f.precision - (n.log2 + 1) = 0 := by omega
        rw [hzero, Nat.pow_zero, Nat.mul_one]
        congr 2
        omega
    have hscale : ((roundDiv n (2 ^ f.dropped n) * 2 ^ (f.precision - (n.log2 + 1)) : Nat) : ℚ) *
        2 ^ (((n.log2 + 1 : Nat) : Int) - f.precision) = (f.nearestNat n : ℚ) := by
      rw [hshift, zpow_sub₀ two_ne_zero, zpow_natCast, zpow_natCast, nearestNat]
      push_cast
      field_simp
    rw [decode_round h0 hplace hm hprecision hlow hhigh (by omega), hscale]

/-- The integer in the format nearest to an integer. -/
def nearest (f : FloatFormat) (n : Int) : Int :=
  if n < 0 then -(f.nearestNat n.natAbs : Int) else f.nearestNat n.natAbs

theorem decode_ofInt (hf : f.Spans width) {n : Int} (hn : n.natAbs < 2 ^ width) :
    (f.decode (f.ofInt n)).toRat? = some (f.nearest n : ℚ) := by
  rw [ofInt, decode_round_nat hf _ hn, nearest]
  by_cases h : n < 0 <;> simp [h]

theorem dropped_le {n : Nat} (hprecision : 0 < f.precision) (hn : n < 2 ^ width) :
    f.dropped n ≤ width := by
  unfold dropped
  by_cases h0 : n = 0
  · rw [h0, Nat.log2_zero]
    omega
  · have := (Nat.log2_lt h0).mpr hn
    omega

theorem nearest_near (hprecision : 0 < f.precision) {n : Int} (hn : n.natAbs < 2 ^ width) :
    |f.nearest n - n| < 2 ^ width := by
  have hplace := Nat.pow_le_pow_right Nat.two_pos (dropped_le hprecision hn)
  obtain ⟨hup, hdown⟩ := roundDiv_near n.natAbs (Nat.two_pow_pos (f.dropped n.natAbs))
  have hnearest : f.nearestNat n.natAbs =
      roundDiv n.natAbs (2 ^ f.dropped n.natAbs) * 2 ^ f.dropped n.natAbs := rfl
  rw [← hnearest] at hup hdown
  have hcast : ((2 ^ width : Nat) : Int) = 2 ^ width := by push_cast; rfl
  rw [← hcast, nearest, abs_lt]
  split_ifs <;> omega

/-- An integer that some pattern stands for is its own nearest. -/
theorem nearest_of_decode (hprecision : f.fractionBits + 1 = f.precision) {bits : Nat} {n : Int}
    (h : (f.decode bits).toRat? = some (n : ℚ)) : f.nearest n = n := by
  have hdvd : 2 ^ f.dropped n.natAbs ∣ n.natAbs := by
    cases hv : f.decode bits with
    | infinity | nan =>
      rw [hv] at h
      cases h
    | finite negative m e =>
      have hm := mantissa_lt hv
      rw [hprecision] at hm
      rw [hv] at h
      obtain ⟨-, hmag⟩ := FloatValue.finite_eq_int h
      rw [Nat.shiftLeft_eq, Nat.shiftLeft_eq] at hmag
      by_cases h0 : n.natAbs = 0
      · rw [h0]
        exact dvd_zero _
      · by_cases he : 0 ≤ e
        · rw [Int.toNat_of_nonpos (by omega : -e ≤ 0), Nat.pow_zero, Nat.mul_one] at hmag
          have hlt : n.natAbs < 2 ^ (f.precision + e.toNat) := by
            rw [← hmag, Nat.pow_add]
            exact Nat.mul_lt_mul_of_pos_right hm (Nat.two_pow_pos _)
          have hlog := (Nat.log2_lt h0).mpr hlt
          have hle : f.dropped n.natAbs ≤ e.toNat := by
            unfold dropped
            omega
          exact (pow_dvd_pow 2 hle).trans ⟨m, by rw [← hmag, Nat.mul_comm]⟩
        · rw [Int.toNat_of_nonpos (by omega : e ≤ 0), Nat.pow_zero, Nat.mul_one] at hmag
          have hlt : n.natAbs < 2 ^ f.precision :=
            calc n.natAbs ≤ n.natAbs * 2 ^ (-e).toNat := Nat.le_mul_of_pos_right _ (Nat.two_pow_pos _)
              _ < 2 ^ f.precision := hmag ▸ hm
          have hlog := (Nat.log2_lt h0).mpr hlt
          have hzero : f.dropped n.natAbs = 0 := by
            unfold dropped
            omega
          rw [hzero]
          exact one_dvd _
  rw [nearest, nearestNat, roundDiv_of_dvd (Nat.two_pow_pos _) hdvd]
  split_ifs <;> omega

end FloatFormat

end ShaderIL
