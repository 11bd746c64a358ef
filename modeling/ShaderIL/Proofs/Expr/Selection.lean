import Mathlib.Data.List.GetD
import ShaderIL.Proofs.Expr.Uses
import ShaderIL.Proofs.Expr.Validation

/-!
# Chains of selections

A selection from a selection is one selection with the composed pattern. Over a whole chain of
patterns (`Expr.selections`) this means: the chain has a type exactly if every pattern stays inside
what the patterns before it left (`Chained`), then it is one node over the expression it started
from, and its operand is the one that selecting step by step gives. The patterns are composed in any
bracketing (`Swizzle.Composes`).

The link between components and lanes is `Operand.picked_compose`: selecting components with one
pattern and then with another selects the lanes that the composed pattern names, whatever the number
of lanes per component. A chain with a bad link has the error of that link alone, as a selection from
an untyped expression adds none (`Expr.pick_of_untyped`).
-/

namespace ShaderIL

/-! ### Composition of patterns -/

namespace Swizzle

variable {t : ValueType} {p q r : Swizzle} {ps qs : List Swizzle}

/-- The pattern names components of a value of the type, and what it selects has a type. -/
structure Selects (p : Swizzle) (t : ValueType) : Prop where
  inside : ∀ c ∈ p.lanes, c.val < t.components
  typed : (⟨t.kind, p.count⟩ : ValueType).valid = true

/-- The type left of a type by patterns applied in turn. -/
def leave (t : ValueType) (ps : List Swizzle) : ValueType :=
  ps.foldl (fun t p => ⟨t.kind, p.count⟩) t

/-- Every pattern selects from what the patterns before it leave. -/
def Chained (t : ValueType) : List Swizzle → Prop
  | [] => True
  | p :: ps => p.Selects t ∧ Chained ⟨t.kind, p.count⟩ ps

/-- The pattern is the composition of patterns in some bracketing. -/
inductive Composes : List Swizzle → Swizzle → Prop
  | single (p : Swizzle) : Composes [p] p
  | join {ps qs : List Swizzle} {p q : Swizzle} (hp : Composes ps p) (hq : Composes qs q) :
    Composes (ps ++ qs) (p.compose q)

@[simp] theorem count_compose (q p : Swizzle) : (q.compose p).count = p.count := by
  simp [compose, count]

/-- Composition is associative where the last pattern stays inside the one before it. -/
theorem compose_assoc (p : Swizzle) (h : ∀ c ∈ r.lanes, c.val < q.count) :
    (p.compose q).compose r = p.compose (q.compose r) := by
  simp only [compose, mk.injEq, List.map_map]
  refine List.map_congr_left fun c hc => ?_
  have hlt : c.val < q.lanes.length := h c hc
  simp only [Function.comp_apply]
  rw [List.getD_eq_getElem _ _ (by simpa using hlt), List.getElem_map,
    List.getD_eq_getElem q.lanes _ hlt]

theorem identity_compose {n : Nat} (hn : n ≤ 4) (h : ∀ c ∈ p.lanes, c.val < n) :
    (identity n).compose p = p := by
  obtain ⟨l⟩ := p
  simp only [compose, mk.injEq]
  refine List.map_congr_left (g := id) (fun c hc => ?_) |>.trans (List.map_id l)
  exact Fin.ext (getD_identity hn (h c hc))

theorem getD_mem {c : Lane} (h : c.val < q.count) : q.lanes.getD c.val .x ∈ q.lanes := by
  have hlt : c.val < q.lanes.length := h
  rw [List.getD_eq_getElem _ _ hlt]
  exact List.getElem_mem hlt

theorem Selects.compose (hq : q.Selects t) (hp : p.Selects ⟨t.kind, q.count⟩) :
    (q.compose p).Selects t := by
  refine ⟨fun c hc => ?_, ?_⟩
  · obtain ⟨l, hl, rfl⟩ := List.mem_map.mp hc
    exact hq.inside _ (getD_mem (hp.inside l hl))
  · rw [count_compose]
    exact hp.typed

theorem chained_append : Chained t (ps ++ qs) ↔ Chained t ps ∧ Chained (leave t ps) qs := by
  induction ps generalizing t with
  | nil => simp [Chained, leave]
  | cons p ps ih =>
    simp only [List.cons_append, Chained, ih, and_assoc]
    rfl

/-- The composition of patterns that select in turn selects at once, and to compose it after a
pattern of the width that the patterns start from is to compose them one by one. -/
theorem Composes.spec (h : Composes ps q) : ∀ {t : ValueType}, Chained t ps →
    q.Selects t ∧ leave t ps = ⟨t.kind, q.count⟩ ∧
      ∀ s : Swizzle, s.count = t.components → s.compose q = ps.foldl compose s := by
  induction h with
  | single p => exact fun hc => ⟨hc.1, rfl, fun _ _ => rfl⟩
  | @join ps qs p q hp hq ihp ihq =>
    intro t hc
    obtain ⟨hcp, hcq⟩ := chained_append.mp hc
    obtain ⟨hselp, hleave, hfoldp⟩ := ihp hcp
    rw [hleave] at hcq
    obtain ⟨hselq, hleave', hfoldq⟩ := ihq hcq
    refine ⟨hselp.compose hselq, ?_, fun s hs => ?_⟩
    · have happend : leave t (ps ++ qs) = leave (leave t ps) qs := List.foldl_append
      rw [happend, hleave, hleave', count_compose]
    · calc s.compose (p.compose q) = (s.compose p).compose q :=
            (compose_assoc s hselq.inside).symm
        _ = qs.foldl compose (s.compose p) := hfoldq _ (by simp)
        _ = (ps ++ qs).foldl compose s := by rw [hfoldp s hs, List.foldl_append]

theorem Composes.ne_nil (h : Composes ps q) : ps ≠ [] := by
  induction h with
  | single p => exact List.cons_ne_nil p []
  | join _ _ ihp _ => exact List.append_ne_nil_of_left_ne_nil ihp _

theorem composes_foldl (p : Swizzle) (ps : List Swizzle) :
    Composes (p :: ps) (ps.foldl compose p) := by
  induction ps using List.reverseRecOn with
  | nil => exact .single p
  | append_singleton ps r ih =>
    rw [List.foldl_append, ← List.cons_append]
    exact ih.join (.single r)

/-- All bracketings give one pattern, that of composing from the left. -/
theorem Composes.eq_foldl (h : Composes (p :: ps) q) (ht : t.valid = true)
    (hc : Chained t (p :: ps)) : q = ps.foldl compose p := by
  obtain ⟨hsel, -, hfold⟩ := h.spec hc
  have h4 := ValueType.components_le_four ht
  have hq := hfold (identity t.components) (count_identity h4)
  rwa [identity_compose h4 hsel.inside, List.foldl_cons, identity_compose h4 hc.1.inside] at hq

theorem leave_valid (ht : t.valid = true) (hc : Chained t ps) : (leave t ps).valid = true := by
  induction ps generalizing t with
  | nil => exact ht
  | cons p ps ih => exact ih hc.1.typed hc.2

/-- Patterns that do not select in turn have a first one that does not. -/
theorem exists_bad_link (h : ¬ Chained t ps) : ∃ before p after, ps = before ++ p :: after ∧
    Chained t before ∧ ¬ p.Selects (leave t before) := by
  induction ps generalizing t with
  | nil => exact absurd trivial h
  | cons p ps ih =>
    by_cases hp : p.Selects t
    · obtain ⟨before, q, after, rfl, hbefore, hq⟩ := ih fun hc => h ⟨hp, hc⟩
      exact ⟨p :: before, q, after, rfl, ⟨hp, hbefore⟩, hq⟩
    · exact ⟨[], p, ps, rfl, trivial, hp⟩

/-! ### The check of one pattern -/

theorem selects_iff (ht : t.valid = true) : p.Selects t ↔ selectError t p = none := by
  constructor
  · rintro ⟨hinside, htyped⟩
    have hmax := maxLane_lt (ValueType.components_pos ht) hinside
    simp only [selectError, ht, Bool.not_true, Bool.false_eq_true, if_false,
      ValueType.vector_eq htyped, htyped]
    exact if_neg (by omega)
  · intro h
    obtain ⟨hmax, htyped⟩ := selectError_eq_none ht (by rw [h]; rfl)
    exact ⟨fun c hc => by have := le_maxLane hc; omega, htyped⟩

/-- The error of a pattern that does not select from a type: it names a component that is not there,
or selects a number of components that no type has. -/
def linkError (t : ValueType) (p : Swizzle) : Error :=
  if ∃ c ∈ p.lanes, t.components ≤ c.val then .patternBeyond p.text t
  else .patternWidth p.text t p.count

theorem selectError_of_not_selects (ht : t.valid = true) (h : ¬ p.Selects t) :
    selectError t p = some (linkError t p) := by
  have hpos := ValueType.components_pos ht
  have hmax : t.components ≤ p.maxLane ↔ ∃ c ∈ p.lanes, t.components ≤ c.val := by
    constructor
    · intro hle
      by_contra hne
      push Not at hne
      have := maxLane_lt hpos hne
      omega
    · rintro ⟨c, hc, hle⟩
      have := le_maxLane hc
      omega
  have herr : selectError t p ≠ none := fun hnone => h ((selects_iff ht).mpr hnone)
  simp only [selectError, ht, Bool.not_true, Bool.false_eq_true, if_false, linkError, hmax] at herr ⊢
  split_ifs at herr ⊢ with hb hv
  · rfl
  · rfl
  · exact absurd rfl herr

end Swizzle

/-! ### Components and lanes -/

namespace Operand

variable {o : Operand} {t : ValueType} {p q : Swizzle}

/-- To select components and then components of these is to select with the composed pattern. -/
theorem picked_compose (o : Operand) (h : ∀ c ∈ p.lanes, c.val < q.count) :
    (o.picked q).picked p = o.picked (q.compose p) := by
  have hlanes : (positions o.width p).map (fun i => (o.picked q).lanes.lanes.getD i .x) =
      (positions o.width (q.compose p)).map fun i => o.lanes.lanes.getD i .x := by
    simp only [positions, Swizzle.compose, List.map_flatMap, List.flatMap_map, List.map_map]
    refine List.flatMap_congr fun c hc => List.map_congr_left fun j hj => ?_
    have hj' : j < o.width := List.mem_range.mp hj
    have hlt : c.val * o.width + j < q.count * o.width := by
      calc c.val * o.width + j < (c.val + 1) * o.width := by rw [Nat.succ_mul]; omega
        _ ≤ q.count * o.width := Nat.mul_le_mul_right _ (h c hc)
    simp only [Function.comp_apply]
    rw [getD_picked (by omega) hlt, mul_add_div_of_lt hj', mul_add_mod_of_lt hj']
  exact congrArg (fun l => (⟨o.place, ⟨l⟩, o.width⟩ : Operand)) hlanes

theorem select_of_selects (ho : o.Fits t) (ht : t.valid = true) (hp : p.Selects t) :
    o.select p = .ok (o.picked p) :=
  select_eq ho ht (Swizzle.maxLane_lt (ValueType.components_pos ht) hp.inside) hp.typed

/-- Selecting step by step along a chain is selecting once with the composed pattern. -/
theorem foldlM_select (ps : List Swizzle) : ∀ {t : ValueType} {q : Swizzle}, o.Fits t →
    t.valid = true → q.Selects t → Swizzle.Chained ⟨t.kind, q.count⟩ ps →
      ps.foldlM select (o.picked q) = .ok (o.picked (ps.foldl Swizzle.compose q)) := by
  induction ps with
  | nil => exact fun _ _ _ _ => rfl
  | cons p ps ih =>
    intro t q ho ht hq hc
    rw [List.foldlM_cons, select_of_selects (picked_fits ho) hq.typed hc.1,
      picked_compose o hc.1.inside]
    refine ih ho ht (hq.compose hc.1) ?_
    rw [Swizzle.count_compose]
    exact hc.2

end Operand

/-! ### Operands of typed expressions -/

theorem Overload.emitFresh_operand {f : Overload} {args : List Operand} {d d' : Draft} {o : Operand}
    (h : Overload.emitFresh (some f) args d = .ok (o, d')) :
    o = Operand.ofType (.temp d.next) f.result := by
  rw [Overload.emitFresh, Emit.bind_of_ok (Draft.alloc_eq _ d)] at h
  obtain ⟨_, _, -, h⟩ := Emit.bind_ok_iff.mp h
  cases h
  rfl

theorem Variable.operand_fits {v : Variable} {d d' : Draft} {o : Operand}
    (hd : v.declared.valid = true) (h : v.operand d = .ok (o, d')) : o.Fits v.declared := by
  cases hh : v.home with
  | none =>
    rw [Variable.operand, hh] at h
    cases h
  | some home =>
    rw [Variable.operand_ok hh] at h
    cases h
    exact Operand.ofType_fits _ hd

namespace Expr

variable {target : Target} {e x : Expr} {d d' : Draft} {o : Operand}

/-- Whenever an expression with a type is emitted, its operand fits the type, whatever the types of
the expressions below it. -/
theorem emit_fits_of_valid (he : e.type.valid = true) (h : e.emit target d = .ok (o, d')) :
    o.Fits e.type := by
  induction e using induction_children generalizing d o d' with
  | h e ih =>
    obtain ⟨args, d₁, hargs, hfinish⟩ := finish_of_emit h
    cases e with
    | absent | unselected => cases he
    | unary | convert | binary | ternary =>
      obtain ⟨f, hf⟩ := exists_overload he (by simp [operands])
      obtain ⟨hs, -, hr, -⟩ := overload?_spec hf
      have hfresh : Overload.emitFresh (some f) args d₁ = .ok (o, d') := by
        rw [← hf]
        exact hfinish
      rw [Overload.emitFresh_operand hfresh, ← hr]
      exact Operand.ofType_fits _ hs.result_valid
    | select x p =>
      have hx : x.type.valid = true := by
        by_contra hx
        rw [type, if_pos (by simp [hx])] at he
        cases he
      obtain ⟨hmax, hvec, htype⟩ := type_select he hx
      obtain ⟨a, d₂, ha, hsel⟩ := Emit.bind_ok_iff.mp h
      have hfits := ih x (by simp [children]) hx ha
      obtain ⟨hsel, -⟩ := Emit.lift_ok_iff.mp hsel
      rw [Operand.select_eq hfits hx hmax hvec] at hsel
      cases hsel
      rw [htype]
      exact Operand.picked_fits hfits
    | literal l =>
      have htype := type_literal he
      rw [htype] at he ⊢
      cases hfinish
      exact Operand.ofType_fits _ he
    | external t text =>
      obtain ⟨ho, -⟩ := orFault_ok_iff.mp hfinish
      have htype : (external t text).type = t := by simp [type, ho, errorOf]
      rw [htype]
      exact externalOperand_fits ho
    | field f =>
      obtain ⟨htype, -⟩ := type_field he
      obtain ⟨ho, -⟩ := orFault_ok_iff.mp (Emit.bind_ok_iff.mp hfinish).choose_spec.choose_spec.2
      rw [htype]
      exact externalOperand_fits (BufferField.operand_eq ho)
    | var v =>
      have hd : v.declared.valid = true := by
        by_contra hd
        rw [type, Variable.type, if_neg hd] at he
        cases he
      have htype : (var v).type = v.declared := if_pos hd
      rw [htype]
      exact Variable.operand_fits hd hfinish
    | view v mask =>
      obtain ⟨hd, s, hs, hvec, htype⟩ := Variable.viewType_valid he
      obtain ⟨hmax, -⟩ := Variable.viewLanes_spec hd hs
      simp only [finish, Variable.viewOperand] at hfinish
      rw [Emit.bind_of_ok (orFault_ok hs d₁)] at hfinish
      obtain ⟨a, d₂, ha, hsel⟩ := Emit.bind_ok_iff.mp hfinish
      have hfits := Variable.operand_fits hd ha
      obtain ⟨hsel, -⟩ := Emit.lift_ok_iff.mp hsel
      rw [Operand.select_eq hfits hd hmax hvec] at hsel
      cases hsel
      rw [type, htype]
      exact Operand.picked_fits hfits
    | sample i c =>
      obtain ⟨a, d₂, -, hsample⟩ := Emit.bind_ok_iff.mp h
      cases hsample
      have htype : (sample i c).type = i.type := by
        simp only [type] at he ⊢
        split_ifs at he ⊢
        · cases he
        · rfl
      rw [htype] at he ⊢
      exact Operand.ofType_fits _ he
    | element t b offset =>
      have htype := type_element he
      obtain ⟨_, d₂, -, h⟩ := Emit.bind_ok_iff.mp h
      obtain ⟨a, d₃, -, hload⟩ := Emit.bind_ok_iff.mp h
      cases hload
      rw [htype] at he ⊢
      exact Operand.ofType_fits _ he
    | elementAt t offset =>
      have htype := type_elementAt he
      cases hfinish
      rw [htype] at he ⊢
      exact Operand.ofType_fits _ he
    | position t =>
      obtain ⟨o', _, _, d₂, hposition, -, hfits⟩ :=
        @finish_position args target t (type_position he).2 d₁
      rw [hfinish] at hposition
      cases hposition
      exact hfits

/-! ### Selections from untyped expressions -/

theorem type_of_selects {q : Swizzle} (he : e.type.valid = true) (hq : q.Selects e.type) :
    (select e q).type = ⟨e.type.kind, q.count⟩ := by
  simp [type, (Swizzle.selects_iff he).mp hq, he, ValueType.vector_eq hq.typed]

/-- A selection from an untyped expression has no type and adds no error. -/
theorem pick_of_untyped (hx : x.type = .invalid) (p : Swizzle) :
    (pick x p).type = .invalid ∧ ∀ unit, (pick x p).errors unit = x.errors unit := by
  have hselect : ∀ {y : Expr} (q : Swizzle), ¬ y.type.valid = true →
      (select y q).type = .invalid ∧ ∀ unit, (select y q).errors unit = y.errors unit := by
    intro y q hy
    simp [type, errors, selectError, hy]
  rcases pick_eq x p with hp | ⟨y, q, rfl, hq, hp⟩
  · rw [hp]
    exact hselect p (by rw [hx]; simp)
  · -- the selection below has no error of its own, so it is untyped because of its operand
    have hy : ¬ y.type.valid = true := by
      intro hy
      have hsel := (Swizzle.selects_iff hy).mpr hq
      rw [type_of_selects hy hsel] at hx
      have htyped := hsel.typed
      rw [hx] at htyped
      cases htyped
    rw [hp]
    refine ⟨(hselect _ hy).1, fun unit => ?_⟩
    rw [(hselect _ hy).2, (hselect _ hy).2]

theorem foldl_pick_of_untyped (ps : List Swizzle) : ∀ {x : Expr}, x.type = .invalid →
    (ps.foldl pick x).type = .invalid ∧ ∀ unit, (ps.foldl pick x).errors unit = x.errors unit := by
  induction ps with
  | nil => exact fun hx => ⟨hx, fun _ => rfl⟩
  | cons p ps ih =>
    intro x hx
    obtain ⟨htype, herrors⟩ := pick_of_untyped hx p
    obtain ⟨htype', herrors'⟩ := ih htype
    exact ⟨htype', fun unit => (herrors' unit).trans (herrors unit)⟩

/-! ### Chains -/

/-- One link of a chain of selections: a written pattern, or the first component several times. -/
inductive Link where
  | pattern (text : String)
  | repeated (n : Int)

namespace Link

/-- Apply a link to an expression. -/
def apply (x : Expr) : Link → Except Fault Expr
  | pattern text => x.selectText text
  | repeated n => x.splat n

/-- The link can be read, as the given pattern. -/
def Reads : Link → Swizzle → Prop
  | pattern text, p => Swizzle.parse text = .ok p
  | repeated n, p => 1 ≤ n ∧ n ≤ 4 ∧ p = .broadcast .x n.toNat

end Link

/-- Selections one from the other. -/
def selections (e : Expr) (ls : List Link) : Except Fault Expr := ls.foldlM Link.apply e

/-- One selection with the composed patterns, none without patterns. -/
def folded (e : Expr) : List Swizzle → Expr
  | [] => e
  | p :: ps => select e (ps.foldl Swizzle.compose p)

theorem isPresent_of_valid (he : e.type.valid = true) : e.isPresent = true := by
  cases e with
  | absent => cases he
  | _ => rfl

theorem knownType_of_present (h : x.isPresent = true) : x.knownType = .ok x.type := if_pos h

theorem isPresent_pick (x : Expr) (p : Swizzle) : (pick x p).isPresent = true := by
  rcases pick_eq x p with hp | ⟨y, q, -, -, hp⟩ <;> rw [hp] <;> rfl

theorem Link.apply_eq {l : Link} {p : Swizzle} (hx : x.isPresent = true) (h : l.Reads p) :
    l.apply x = .ok (pick x p) := by
  have hknown := knownType_of_present hx
  cases l with
  | pattern text =>
    have hp : Swizzle.parse text = .ok p := h
    simp only [apply, selectText, hp, hknown]
    rfl
  | repeated n =>
    obtain ⟨hlow, hhigh, rfl⟩ := h
    have hn : ¬ (n < 1 || 4 < n) = true := by simp; omega
    simp only [apply, splat, if_neg hn, hknown]
    rfl

theorem selections_eq {ls : List Link} {ps : List Swizzle} (h : List.Forall₂ Link.Reads ls ps) :
    ∀ {e : Expr}, e.isPresent = true → e.selections ls = .ok (ps.foldl pick e) := by
  induction h with
  | nil => exact fun _ => rfl
  | cons hl _ ih =>
    intro e he
    rw [selections, List.foldlM_cons, Link.apply_eq he hl]
    exact ih (isPresent_pick e _)

/-! ### Chains without a bad link -/

variable {ps : List Swizzle}

theorem pick_of_selects {p q : Swizzle} (he : e.type.valid = true) (hq : q.Selects e.type)
    (hp : p.Selects ⟨e.type.kind, q.count⟩) : pick (select e q) p = select e (q.compose p) := by
  have hq' := (Swizzle.selects_iff he).mp hq
  have hp' := (Swizzle.selects_iff hq.typed).mp hp
  rw [← type_of_selects he hq] at hp'
  simp [pick, hq', hp']

theorem foldl_pick_select (ps : List Swizzle) : ∀ {q : Swizzle}, e.type.valid = true →
    q.Selects e.type → Swizzle.Chained ⟨e.type.kind, q.count⟩ ps →
      ps.foldl pick (select e q) = select e (ps.foldl Swizzle.compose q) := by
  induction ps with
  | nil => exact fun _ _ _ => rfl
  | cons p ps ih =>
    intro q he hq hc
    rw [List.foldl_cons, pick_of_selects he hq hc.1]
    refine ih he (hq.compose hc.1) ?_
    rw [Swizzle.count_compose]
    exact hc.2

theorem pick_of_ne {p : Swizzle} (hne : ∀ y q, e ≠ select y q) : pick e p = select e p := by
  rcases pick_eq e p with hp | ⟨y, q, rfl, -, -⟩
  · exact hp
  · exact absurd rfl (hne y q)

/-- A chain without a bad link is one node over the expression it started from. -/
theorem foldl_pick_of_chained (he : e.type.valid = true) (hne : ∀ y q, e ≠ select y q)
    (hc : Swizzle.Chained e.type ps) : ps.foldl pick e = folded e ps := by
  cases ps with
  | nil => rfl
  | cons p ps =>
    rw [List.foldl_cons, pick_of_ne hne]
    exact foldl_pick_select ps he hc.1 hc.2

theorem folded_spec (he : e.type.valid = true) (hc : Swizzle.Chained e.type ps) :
    (folded e ps).type = Swizzle.leave e.type ps ∧
      ∀ unit, (folded e ps).errors unit = e.errors unit := by
  cases ps with
  | nil => exact ⟨rfl, fun _ => rfl⟩
  | cons p ps =>
    obtain ⟨hsel, hleave, -⟩ := (Swizzle.composes_foldl p ps).spec hc
    refine ⟨(type_of_selects he hsel).trans hleave.symm, fun unit => ?_⟩
    simp [folded, errors, (Swizzle.selects_iff he).mp hsel]

/-- It is emitted as that expression, and its operand is the one that selecting step by step gives. -/
theorem emit_folded (he : e.type.valid = true) (hc : Swizzle.Chained e.type ps)
    (h : e.emit target d = .ok (o, d')) :
    ∃ o', ps.foldlM Operand.select o = .ok o' ∧ (folded e ps).emit target d = .ok (o', d') := by
  have hfits := emit_fits_of_valid he h
  cases ps with
  | nil => exact ⟨o, rfl, h⟩
  | cons p ps =>
    obtain ⟨hsel, -, -⟩ := (Swizzle.composes_foldl p ps).spec hc
    refine ⟨o.picked (ps.foldl Swizzle.compose p), ?_, ?_⟩
    · rw [List.foldlM_cons, Operand.select_of_selects hfits he hc.1]
      exact Operand.foldlM_select ps hfits he hc.1 hc.2
    · rw [folded, emit, Emit.bind_of_ok h]
      exact Emit.lift_ok (Operand.select_of_selects hfits he hsel) d'

theorem emit_folded_of_fault {f : Fault} (ps : List Swizzle) (h : e.emit target d = .error f) :
    (folded e ps).emit target d = .error f := by
  cases ps with
  | nil => exact h
  | cons p ps =>
    rw [folded, emit, Emit.bind_eq, h]
    rfl

end Expr

namespace Assembler

variable {s : Assembler} {e : Expr}

theorem emitting_fault {α : Type} {m : Emit α} {f : Fault} (h : m s.draft = .error f) :
    s.emitting m = .error f := by
  have hrun : m.run s.draft = .error f := h
  simp only [emitting, hrun]

theorem eval_of_clean (hphase : s.phase = .building) (hreport : s.report = none)
    (herr : e.errors (some s.unit) = []) :
    s.eval e = s.emitting (e.emit s.target) >>= fun r => .ok (.ok r.1, r.2) := by
  simp only [eval, hphase, hreport, herr, bne_self_eq_false, Bool.false_eq_true, if_false,
    List.isEmpty_nil, if_true]
  rfl

/-- An expression that is not emitted is refused for its errors alone. -/
theorem eval_of_refused {x : Expr} (hsame : x.errors (some s.unit) = e.errors (some s.unit))
    (h : ¬ (s.phase = .building ∧ s.report = none ∧ e.errors (some s.unit) = [])) :
    (∃ r s', s.eval e = .ok (.error r, s')) ∧ s.eval x = s.eval e := by
  by_cases hphase : s.phase = .building
  · cases hreport : s.report with
    | some r => simp [eval, hphase, hreport]
    | none =>
      have herr : e.errors (some s.unit) ≠ [] := fun herr => h ⟨hphase, hreport, herr⟩
      simp [eval, hphase, hreport, hsame, herr]
  · simp [eval, hphase]

/-- Evaluation of a chain without a bad link is that of the expression it started from, refusals and
faults included, but for the operand. -/
theorem eval_folded (s : Assembler) {ps : List Swizzle} (he : e.type.valid = true)
    (hc : Swizzle.Chained e.type ps) :
    (∀ f, s.eval e = .error f → s.eval (e.folded ps) = .error f) ∧
      (∀ r s', s.eval e = .ok (.error r, s') → s.eval (e.folded ps) = .ok (.error r, s')) ∧
      ∀ o s', s.eval e = .ok (.ok o, s') → ∃ o', ps.foldlM Operand.select o = .ok o' ∧
        s.eval (e.folded ps) = .ok (.ok o', s') := by
  have herrors := (Expr.folded_spec he hc).2 (some s.unit)
  by_cases hopen : s.phase = .building ∧ s.report = none ∧ e.errors (some s.unit) = []
  · obtain ⟨hphase, hreport, hclean⟩ := hopen
    rw [eval_of_clean hphase hreport hclean,
      eval_of_clean hphase hreport (herrors.trans hclean)]
    cases hemit : e.emit s.target s.draft with
    | error f =>
      rw [emitting_fault hemit, emitting_fault (Expr.emit_folded_of_fault ps hemit)]
      refine ⟨fun _ h => h, fun r s' h => ?_, fun o s' h => ?_⟩ <;> cases h
    | ok r =>
      obtain ⟨o, d⟩ := r
      obtain ⟨o', ho', hemit'⟩ := Expr.emit_folded he hc hemit
      rw [emitting_ok hemit, emitting_ok hemit']
      refine ⟨fun f h => ?_, fun r s' h => ?_, fun o₁ s' h => ?_⟩ <;> cases h
      exact ⟨o', ho', rfl⟩
  · obtain ⟨⟨r, s', hrefused⟩, hsame⟩ := eval_of_refused herrors hopen
    rw [hsame, hrefused]
    refine ⟨fun _ h => h, fun _ _ h => h, fun o s'' h => ?_⟩
    cases h

end Assembler

namespace Expr

variable {e : Expr} {ps : List Swizzle}

/-! ### Chains with a bad link -/

/-- From the first bad link on the chain is untyped, and the error of that link is the only one added. -/
theorem foldl_pick_of_bad {before : List Swizzle} {p : Swizzle} (he : e.type.valid = true)
    (hne : ∀ y q, e ≠ select y q) (hc : Swizzle.Chained e.type before)
    (hp : ¬ p.Selects (Swizzle.leave e.type before)) (after : List Swizzle) :
    ((before ++ p :: after).foldl pick e).type = .invalid ∧
      ∀ unit, ((before ++ p :: after).foldl pick e).errors unit =
        e.errors unit ++ [Swizzle.linkError (Swizzle.leave e.type before) p] := by
  obtain ⟨htype, herrors⟩ := folded_spec he hc
  have herr : selectError (folded e before).type p =
      some (Swizzle.linkError (Swizzle.leave e.type before) p) := by
    rw [htype]
    exact Swizzle.selectError_of_not_selects (Swizzle.leave_valid he hc) hp
  have hpick : pick (folded e before) p = select (folded e before) p := by
    cases hx : folded e before with
    | select y q =>
      rw [hx] at herr
      simp [pick, herr]
    | _ => rfl
  have hbad : (select (folded e before) p).type = .invalid := by simp [type, herr]
  rw [List.foldl_append, List.foldl_cons, foldl_pick_of_chained he hne hc, hpick]
  obtain ⟨htype', herrors'⟩ := foldl_pick_of_untyped after hbad
  refine ⟨htype', fun unit => ?_⟩
  rw [herrors' unit, errors, herr, herrors unit]
  rfl

/-- **Selections fold.** A chain of selections over an expression with a type is one selection. It has
a type exactly if every pattern stays inside what those before it left. Then it is one node over the
expression with the composition of the patterns, however bracketed, and evaluating it in any state is
evaluating the expression and selecting from its operand step by step. Otherwise the error of the first
bad link is the only one it adds. -/
theorem selections_fold (he : e.type.valid = true) (hne : ∀ y q, e ≠ select y q) {ls : List Link}
    (hls : List.Forall₂ Link.Reads ls ps) :
    ∃ c, e.selections ls = .ok c ∧
      (c.type.valid = true ↔ Swizzle.Chained e.type ps) ∧
      (Swizzle.Chained e.type ps →
        (∀ unit, c.errors unit = e.errors unit) ∧
        (∀ p rest, ps = p :: rest → c = select e (rest.foldl Swizzle.compose p)) ∧
        (∀ q, Swizzle.Composes ps q → c = select e q) ∧
        ∀ s : Assembler, (∀ f, s.eval e = .error f → s.eval c = .error f) ∧
          (∀ r s', s.eval e = .ok (.error r, s') → s.eval c = .ok (.error r, s')) ∧
          ∀ o s', s.eval e = .ok (.ok o, s') → ∃ o', ps.foldlM Operand.select o = .ok o' ∧
            s.eval c = .ok (.ok o', s')) ∧
      (¬ Swizzle.Chained e.type ps → ∃ before p after, ps = before ++ p :: after ∧
        Swizzle.Chained e.type before ∧ ¬ p.Selects (Swizzle.leave e.type before) ∧
        ∀ unit, c.errors unit =
          e.errors unit ++ [Swizzle.linkError (Swizzle.leave e.type before) p]) := by
  refine ⟨ps.foldl pick e, selections_eq hls (isPresent_of_valid he), ?_⟩
  by_cases hc : Swizzle.Chained e.type ps
  · obtain ⟨htype, herrors⟩ := folded_spec he hc
    rw [foldl_pick_of_chained he hne hc]
    refine ⟨iff_of_true (htype ▸ Swizzle.leave_valid he hc) hc,
      fun _ => ⟨herrors, ?_, fun q hq => ?_, fun s => s.eval_folded he hc⟩, fun h => absurd hc h⟩
    · rintro p rest rfl
      rfl
    · cases ps with
      | nil => exact absurd rfl hq.ne_nil
      | cons p ps => rw [hq.eq_foldl he hc, folded]
  · obtain ⟨before, p, after, rfl, hbefore, hp⟩ := Swizzle.exists_bad_link hc
    obtain ⟨htype, herrors⟩ := foldl_pick_of_bad he hne hbefore hp after
    refine ⟨iff_of_false (by rw [htype]; simp) hc, fun h => absurd h hc,
      fun _ => ⟨before, p, after, rfl, hbefore, hp, herrors⟩⟩

/-- The premises can be met: two doubles are exchanged and the first of them is repeated, which reads
the upper lanes of the register twice. -/
theorem selections_of_double_pair :
    let v : Variable := ⟨.double2, some ⟨⟨0, 1⟩, 0⟩⟩
    let s : Assembler := { phase := .building, generation := 1, draft := { next := 1 } }
    ∃ c o s', (Expr.var v).selections [.pattern "yx", .repeated 2] = .ok c ∧
      c = select (.var v) ⟨[.y, .y]⟩ ∧ s.eval c = .ok (.ok o, s') ∧ o.text = "r0.zwzw" := by
  intro v s
  have hreads : List.Forall₂ Link.Reads [.pattern "yx", .repeated 2]
      [⟨[.y, .x]⟩, .broadcast .x 2] := by
    refine .cons ?_ (.cons ?_ .nil)
    · rfl
    · exact ⟨by decide, by decide, rfl⟩
  have hchained : Swizzle.Chained (Expr.var v).type [⟨[.y, .x]⟩, .broadcast .x 2] := by
    refine ⟨⟨by decide, by decide⟩, ⟨by decide, by decide⟩, trivial⟩
  have htype : (Expr.var v).type.valid = true := rfl
  obtain ⟨c, hchain, -, hsound, -⟩ := selections_fold htype (by simp) hreads
  obtain ⟨-, hfold, -, heval⟩ := hsound hchained
  obtain ⟨o, hselect, hc⟩ := (heval s).2.2 (Operand.ofType (.temp 0) .double2) s rfl
  refine ⟨c, o, s, hchain, hfold _ _ rfl, hc, ?_⟩
  cases hselect
  rfl

end Expr

end ShaderIL
