import Mathlib.Tactic
import ShaderIL.Toml.Syntax

/-!
# What is read from a text

A term that is read from a text is `Plain`: where it is written as a scalar, its value has no parts
(`plain_of_items?`). Arrays and tables of a document come from brackets and braces only.
-/

namespace ShaderIL.Toml

/-- The value has no parts. -/
def Value.Simple : Value → Prop
  | .array _ | .table _ | .tables _ => False
  | _ => True

/-- The scalars of a term have no parts. -/
inductive Term.Plain : Term → Prop where
  | scalar {v : Value} (h : v.Simple) : Plain (.scalar v)
  | array {ts : List Term} (h : ∀ t ∈ ts, Plain t) : Plain (.array ts)
  | inline {fs : List (Path × Term)} (h : ∀ f ∈ fs, Plain f.2) : Plain (.inline fs)

/-- The values of an item are plain. -/
def Item.Plain : Item → Prop
  | .assign _ t => t.Plain
  | _ => True

variable {v : Value} {cs rest : List Char}

/-! ### Scalars -/

theorem simple_of_inRange? {n : Int} (h : inRange? n = some v) : v.Simple := by
  unfold inRange? at h
  split_ifs at h
  cases h
  trivial

theorem simple_of_decimalValue? (h : decimalValue? cs = some v) : v.Simple := by
  unfold decimalValue? at h
  split_ifs at h <;> exact simple_of_inRange? h

theorem simple_of_basedValue? {base : Nat} (h : basedValue? base cs = some v) : v.Simple := by
  unfold basedValue? at h
  split_ifs at h
  exact simple_of_inRange? h

theorem simple_of_floatValue? (h : floatValue? cs = some v) : v.Simple := by
  unfold floatValue? at h
  simp only at h
  split_ifs at h
  split at h
  · split_ifs at h
    cases h
    trivial
  · cases h

theorem simple_of_word? (h : word? cs = some (v, rest)) : v.Simple := by
  unfold word? at h
  split at h <;> cases h <;> trivial

theorem simple_of_moment? (h : moment? cs = some (v, rest)) : v.Simple := by
  unfold moment? at h
  split_ifs at h
  cases h
  trivial

theorem simple_of_decimal? {sign : List Char} (h : decimal? sign cs = some (v, rest)) :
    v.Simple := by
  unfold decimal? at h
  simp only at h
  split_ifs at h
  · obtain ⟨w, hw, heq⟩ := Option.map_eq_some_iff.mp h
    cases heq
    exact simple_of_floatValue? hw
  · obtain ⟨w, hw, heq⟩ := Option.map_eq_some_iff.mp h
    cases heq
    exact simple_of_decimalValue? hw

theorem simple_of_based? {base : Nat} (h : based? base cs = some (v, rest)) : v.Simple := by
  unfold based? at h
  simp only at h
  split_ifs at h
  obtain ⟨w, hw, heq⟩ := Option.map_eq_some_iff.mp h
  cases heq
  exact simple_of_basedValue? hw

theorem simple_of_signed? {sign : Char} (h : signed? sign cs = some (v, rest)) : v.Simple := by
  unfold signed? at h
  split at h
  · split_ifs at h
    exact simple_of_decimal? h
  · split_ifs at h
    · exact simple_of_decimal? h
    · exact simple_of_word? h
  · cases h

theorem simple_of_unsigned? (h : numeral?.unsigned? cs = some (v, rest)) : v.Simple := by
  unfold numeral?.unsigned? at h
  simp only at h
  split_ifs at h
  · exact simple_of_moment? h
  · exact simple_of_decimal? h

theorem simple_of_numeral? (h : numeral? cs = some (v, rest)) : v.Simple := by
  unfold numeral? at h
  split at h
  · exact simple_of_signed? h
  · exact simple_of_signed? h
  · split at h
    · exact simple_of_based? h
    · exact simple_of_unsigned? h
  · exact simple_of_unsigned? h

theorem simple_of_scalar? (h : scalar? cs = some (v, rest)) : v.Simple := by
  unfold scalar? at h
  split at h
  · cases h
    trivial
  · cases h
    trivial
  · split_ifs at h
    · obtain ⟨w, -, heq⟩ := Option.map_eq_some_iff.mp h
      cases heq
      trivial
    · exact simple_of_numeral? h
    · exact simple_of_word? h
  · cases h

/-! ### Terms and items -/

theorem plain_of_fuel (fuel : Nat) :
    (∀ cs t rest, term? fuel cs = some (t, rest) → t.Plain) ∧
    (∀ cs ts rest, elements? fuel cs = some (ts, rest) → ∀ t ∈ ts, t.Plain) ∧
    ∀ cs fs rest, fields? fuel cs = some (fs, rest) → ∀ f ∈ fs, f.2.Plain := by
  induction fuel with
  | zero =>
    refine ⟨fun cs t rest h => ?_, fun cs ts rest h => ?_, fun cs fs rest h => ?_⟩
    · rw [term?] at h
      cases h
    · rw [elements?] at h
      cases h
    · rw [fields?] at h
      cases h
  | succ fuel ih =>
    obtain ⟨hterm, helements, hfields⟩ := ih
    refine ⟨fun cs t rest h => ?_, fun cs ts rest h => ?_, fun cs fs rest h => ?_⟩
    · rw [term?] at h
      split at h
      · obtain ⟨⟨ts, _⟩, hts, heq⟩ := Option.map_eq_some_iff.mp h
        cases heq
        exact .array (helements _ _ _ hts)
      · split at h
        · cases h
          exact .inline (by simp)
        · obtain ⟨⟨fs, _⟩, hfs, heq⟩ := Option.map_eq_some_iff.mp h
          cases heq
          exact .inline (hfields _ _ _ hfs)
      · obtain ⟨⟨v, _⟩, hv, heq⟩ := Option.map_eq_some_iff.mp h
        cases heq
        exact .scalar (simple_of_scalar? hv)
    · rw [elements?] at h
      split at h
      · cases h
        simp
      · obtain ⟨⟨t, rest'⟩, ht, h⟩ := Option.bind_eq_some_iff.mp h
        simp only at h
        split at h
        · obtain ⟨⟨ts', rest''⟩, hts, h⟩ := Option.bind_eq_some_iff.mp h
          cases h
          exact List.forall_mem_cons.mpr ⟨hterm _ _ _ ht, helements _ _ _ hts⟩
        · cases h
          simpa using hterm _ _ _ ht
        · cases h
    · rw [fields?] at h
      obtain ⟨⟨key, rest'⟩, -, h⟩ := Option.bind_eq_some_iff.mp h
      simp only at h
      split at h
      · obtain ⟨⟨t, rest''⟩, ht, h⟩ := Option.bind_eq_some_iff.mp h
        simp only at h
        split at h
        · obtain ⟨⟨fs', _⟩, hfs, h⟩ := Option.bind_eq_some_iff.mp h
          cases h
          exact List.forall_mem_cons.mpr ⟨hterm _ _ _ ht, hfields _ _ _ hfs⟩
        · cases h
          simpa using hterm _ _ _ ht
        · cases h
      · cases h

theorem plain_of_item? {item : Item} (h : item? cs = some (item, rest)) : item.Plain := by
  unfold item? at h
  split at h
  · obtain ⟨⟨key, _⟩, -, h⟩ := Option.bind_eq_some_iff.mp h
    simp only at h
    split at h
    · cases h
      trivial
    · cases h
  · obtain ⟨⟨key, _⟩, -, h⟩ := Option.bind_eq_some_iff.mp h
    simp only at h
    split at h
    · cases h
      trivial
    · cases h
  · obtain ⟨⟨key, _⟩, -, h⟩ := Option.bind_eq_some_iff.mp h
    simp only at h
    split at h
    · obtain ⟨⟨t, _⟩, ht, h⟩ := Option.bind_eq_some_iff.mp h
      cases h
      exact (plain_of_fuel _).1 _ _ _ ht
    · cases h

theorem plain_of_lines? {fuel : Nat} {items : List Item} (h : lines? fuel cs = some items) :
    ∀ item ∈ items, item.Plain := by
  induction fuel generalizing cs items with
  | zero => cases h
  | succ fuel ih =>
    rw [lines?] at h
    split at h
    · cases h
      simp
    · obtain ⟨⟨item, _⟩, hitem, h⟩ := Option.bind_eq_some_iff.mp h
      obtain ⟨_, -, h⟩ := Option.bind_eq_some_iff.mp h
      obtain ⟨items', hitems, h⟩ := Option.bind_eq_some_iff.mp h
      cases h
      exact List.forall_mem_cons.mpr ⟨plain_of_item? hitem, ih hitems⟩

theorem plain_of_items? {text : String} {items : List Item} (h : items? text = some items) :
    ∀ item ∈ items, item.Plain := by
  unfold items? at h
  simp only at h
  split_ifs at h
  exact plain_of_lines? h

end ShaderIL.Toml
