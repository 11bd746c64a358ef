import Mathlib.Data.List.Nodup
import Mathlib.Tactic
import ShaderIL.Assembler.LiteralTable

/-!
# Numbered literals

A `LiteralTable` keeps the numbers of its patterns and the patterns by number apart. Entering a pattern
keeps the two inverse to each other (`Inverse.add`), so they are inverse in every table that was built
up from the empty one (`Grows.inverse`): no pattern stands in the order twice, and the order lists the
patterns by their first use (`Inverse.order_foldl_add`).
-/

namespace ShaderIL.LiteralTable

variable {t t₁ t' : LiteralTable} {bits : Quad} {i : Nat}

/-- The numbers and the order say the same. -/
def Inverse (t : LiteralTable) : Prop :=
  ∀ bits i, t.numbers.lookup bits = some i ↔ t.order[i]? = some bits

theorem inverse_empty : Inverse {} := by simp [Inverse]

/-! ### Entering a pattern -/

theorem number_of_some (h : t.numbers.lookup bits = some i) : t.number bits = i := by
  simp [number, h]

theorem add_of_some (h : t.numbers.lookup bits = some i) : t.add bits = t := by
  simp [add, h]

theorem number_of_none (h : t.numbers.lookup bits = none) : t.number bits = t.order.length := by
  simp [number, h]

theorem add_of_none (h : t.numbers.lookup bits = none) :
    t.add bits = ⟨(bits, t.order.length) :: t.numbers, t.order ++ [bits]⟩ := by
  simp [add, h]

theorem lookup_add (t : LiteralTable) (bits : Quad) :
    (t.add bits).numbers.lookup bits = some (t.number bits) := by
  cases h : t.numbers.lookup bits with
  | none => simp [add_of_none h, number_of_none h]
  | some i => rw [add_of_some h, number_of_some h, h]

/-- Entering a pattern keeps the numbers of the others. -/
theorem lookup_add_of_some {c : Quad} (h : t.numbers.lookup c = some i) (bits : Quad) :
    (t.add bits).numbers.lookup c = some i := by
  cases hbits : t.numbers.lookup bits with
  | some j => rw [add_of_some hbits, h]
  | none =>
    have hne : (c == bits) = false := by
      rw [beq_eq_false_iff_ne]
      rintro rfl
      rw [h] at hbits
      cases hbits
    rw [add_of_none hbits, List.lookup_cons, hne, h]

theorem order_prefix_add (t : LiteralTable) (bits : Quad) : t.order <+: (t.add bits).order := by
  cases h : t.numbers.lookup bits with
  | some i => rw [add_of_some h]
  | none =>
    rw [add_of_none h]
    exact List.prefix_append _ _

/-- **Entering a pattern keeps the numbers and the order inverse.** -/
theorem Inverse.add (h : t.Inverse) (bits : Quad) : (t.add bits).Inverse := by
  cases hbits : t.numbers.lookup bits with
  | some i => rwa [add_of_some hbits]
  | none =>
    rw [add_of_none hbits]
    intro c i
    by_cases hc : c = bits
    · -- the pattern is new, so only the last place of the order holds it
      subst hc
      rw [List.lookup_cons_self, Option.some.injEq, List.getElem?_append]
      split_ifs with hi
      · rw [← h, hbits]
        exact iff_of_false (by omega) (by simp)
      · rw [List.getElem?_singleton]
        split_ifs with hlast
        · exact iff_of_true (by omega) rfl
        · exact iff_of_false (by omega) (by simp)
    · have hne : (c == bits) = false := beq_eq_false_iff_ne.mpr hc
      rw [List.lookup_cons, hne, h, List.getElem?_append]
      split_ifs with hi
      · exact Iff.rfl
      · rw [List.getElem?_eq_none (by omega), List.getElem?_singleton]
        split_ifs
        · simp [Ne.symm hc]
        · simp

theorem Inverse.mem_iff (h : t.Inverse) : bits ∈ t.order ↔ t.numbers.lookup bits ≠ none := by
  rw [List.mem_iff_getElem?, Option.ne_none_iff_exists']
  exact exists_congr fun i => (h bits i).symm

theorem Inverse.nodup (h : t.Inverse) : t.order.Nodup := by
  rw [List.nodup_iff_getElem?_ne_getElem?]
  intro i j hij hj heq
  have hlast : t.order[j]? = some t.order[j] := List.getElem?_eq_getElem hj
  have hi := (h _ i).mpr (heq.trans hlast)
  have hj := (h _ j).mpr hlast
  rw [hi, Option.some.injEq] at hj
  omega

/-! ### Tables that grow -/

/-- Patterns were entered in the table, one after the other. -/
def Grows (t t' : LiteralTable) : Prop := ∃ bs : List Quad, t' = bs.foldl add t

namespace Grows

theorem refl (t : LiteralTable) : Grows t t := ⟨[], rfl⟩

theorem trans (h : Grows t t₁) (h' : Grows t₁ t') : Grows t t' := by
  obtain ⟨bs, rfl⟩ := h
  obtain ⟨cs, rfl⟩ := h'
  exact ⟨bs ++ cs, List.foldl_append.symm⟩

theorem add (t : LiteralTable) (bits : Quad) : Grows t (t.add bits) := ⟨[bits], rfl⟩

/-- What holds of a table and is kept by entering a pattern holds of every table that grew from it. -/
theorem induct {P : LiteralTable → Prop} (h : Grows t t') (ht : P t)
    (hadd : ∀ t bits, P t → P (t.add bits)) : P t' := by
  obtain ⟨bs, rfl⟩ := h
  induction bs generalizing t with
  | nil => exact ht
  | cons b bs ih => exact ih (hadd t b ht)

/-- **The numbers and the order stay inverse.** -/
theorem inverse (h : Grows t t') (ht : t.Inverse) : t'.Inverse :=
  h.induct ht fun _ bits ht => ht.add bits

theorem order (h : Grows t t') : t.order <+: t'.order :=
  h.induct (P := fun t' => t.order <+: t'.order) (List.prefix_refl _) fun t' bits ht =>
    ht.trans (t'.order_prefix_add bits)

theorem lookup (h : Grows t t') (hi : t.numbers.lookup bits = some i) :
    t'.numbers.lookup bits = some i :=
  h.induct (P := fun t' => t'.numbers.lookup bits = some i) hi fun _ b hi => lookup_add_of_some hi b

end Grows

/-- Patterns that are not in the table are added, each at its first use. -/
theorem Inverse.order_foldl_add (h : t.Inverse) (bs : List Quad) :
    (bs.foldl LiteralTable.add t).order = t.order ++ (bs.filter (· ∉ t.order)).eraseDups := by
  induction bs generalizing t with
  | nil => simp
  | cons b bs ih =>
    rw [List.foldl_cons, ih (h.add b)]
    by_cases hb : b ∈ t.order
    · obtain ⟨i, hi⟩ := Option.ne_none_iff_exists'.mp (h.mem_iff.mp hb)
      rw [add_of_some hi, List.filter_cons_of_neg (by simpa using hb)]
    · have hnone : t.numbers.lookup b = none := by
        by_contra hsome
        exact hb (h.mem_iff.mpr hsome)
      have hrest : bs.filter (· ∉ t.order ++ [b]) =
          (bs.filter (· ∉ t.order)).filter fun c => !c == b := by
        rw [List.filter_filter]
        refine List.filter_congr fun c _ => ?_
        by_cases hc : c ∈ t.order <;> by_cases hcb : c = b <;> simp [hc, hcb]
      rw [add_of_none hnone, hrest, List.filter_cons_of_pos (by simpa using hb),
        List.eraseDups_cons, List.append_assoc]
      rfl

end ShaderIL.LiteralTable
