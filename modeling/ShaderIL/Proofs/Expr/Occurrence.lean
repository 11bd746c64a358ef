import ShaderIL.Proofs.Expr.Registers

/-!
# Registers of node occurrences

A tree can have the same node at several places, and each of them is emitted on its own. An
`Occurrence` is a node at its place in an emission, with the drafts before its operands, before its own
part and after it; `Expr.Occurs` finds it by the path from the root. Its own part takes registers for
its result and for scratch, its `Role`s (`Occurrence.Owns`).

The registers that an emission takes are those of its occurrences, each of them in one role of one
occurrence (`Occurs.exists_owner`, `Occurs.owner_unique`).
-/

namespace ShaderIL

/-- A node at its place in an emission: the draft before its operands, the operands, the draft before
its own part, its operand and the draft after it. -/
structure Occurrence where
  node : Expr
  start : Draft
  args : List Operand
  pre : Draft
  operand : Operand
  post : Draft

/-- What a node takes a register for. -/
inductive Role where
  | result
  | scratch (index : Nat)
  deriving DecidableEq

namespace Occurrence

/-- The register is taken while the node or one of its operands is emitted. -/
def Allocates (w : Occurrence) (r : Nat) : Prop := w.start.next ≤ r ∧ r < w.post.next

/-- The register is taken by the node's own part. -/
def Takes (w : Occurrence) (r : Nat) : Prop := w.pre.next ≤ r ∧ r < w.post.next

/-- The registers that the node's own part takes besides the one of its operand. -/
def scratch (w : Occurrence) : List Nat :=
  (List.range' w.pre.next (w.post.next - w.pre.next)).filter fun r => w.operand.place ≠ .temp r

/-- The register is taken for the node, in a role. -/
def Owns (w : Occurrence) : Role → Nat → Prop
  | .result, r => w.Takes r ∧ w.operand.place = .temp r
  | .scratch i, r => w.scratch[i]? = some r

/-- The lines of the node's operands. -/
def operandLines (w : Occurrence) : List Line :=
  w.pre.code.toList.drop w.start.code.toList.length

end Occurrence

/-- The occurrence at a path in a tree that is emitted from a draft. A path lists the positions of
children from the root on. -/
def Expr.Occurs (target : Target) : List Nat → Draft → Expr → Occurrence → Prop
  | [], d, e, w => w.node = e ∧ w.start = d ∧
    emitAll target e.children (e.opened d) = .ok (w.args, w.pre) ∧
      e.emit target d = .ok (w.operand, w.post)
  | i :: p, d, e, w => ∃ x os d1, e.children[i]? = some x ∧
    emitAll target (e.children.take i) (e.opened d) = .ok (os, d1) ∧ x.Occurs target p d1 w

/-! ### Roles -/

namespace Occurrence

variable {w : Occurrence} {r : Nat} {s s' : Role}

theorem mem_scratch : r ∈ w.scratch ↔ w.Takes r ∧ w.operand.place ≠ .temp r := by
  simp only [scratch, List.mem_filter, List.mem_range'_1, decide_eq_true_eq, Takes]
  refine and_congr_left fun _ => and_congr_right fun _ => ?_
  omega

theorem Owns.takes (h : w.Owns s r) : w.Takes r := by
  cases s with
  | result => exact h.1
  | scratch i => exact (mem_scratch.mp (List.mem_of_getElem? h)).1

theorem Takes.exists_role (h : w.Takes r) : ∃ s, w.Owns s r := by
  by_cases hr : w.operand.place = .temp r
  · exact ⟨.result, h, hr⟩
  · obtain ⟨i, hi⟩ := List.mem_iff_getElem?.mp (mem_scratch.mpr ⟨h, hr⟩)
    exact ⟨.scratch i, hi⟩

theorem Owns.role_unique (h : w.Owns s r) (h' : w.Owns s' r) : s = s' := by
  cases s with
  | result =>
    cases s' with
    | result => rfl
    | scratch i => exact absurd h.2 (mem_scratch.mp (List.mem_of_getElem? h')).2
  | scratch i =>
    cases s' with
    | result => exact absurd h'.2 (mem_scratch.mp (List.mem_of_getElem? h)).2
    | scratch j =>
      have hnodup : w.scratch.Nodup := List.Nodup.filter _ List.nodup_range'
      obtain ⟨hi, hir⟩ := List.getElem?_eq_some_iff.mp h
      obtain ⟨hj, hjr⟩ := List.getElem?_eq_some_iff.mp h'
      rw [(hnodup.getElem_inj_iff).mp (hir.trans hjr.symm)]

end Occurrence

/-! ### Where occurrences lie -/

namespace Expr

variable {target : Target} {unit : UnitId} {e : Expr} {d d' : Draft} {o : Operand}
  {p q : List Nat} {w w' : Occurrence} {r i j : Nat}

theorem emitAll_append {xs ys : List Expr} {zs : List Operand}
    (h : emitAll target (xs ++ ys) d = .ok (zs, d')) : ∃ os d1 os',
      emitAll target xs d = .ok (os, d1) ∧ emitAll target ys d1 = .ok (os', d') := by
  induction xs generalizing d zs with
  | nil => exact ⟨[], d, zs, rfl, h⟩
  | cons x xs ih =>
    obtain ⟨o, d1, ho, h⟩ := Emit.bind_ok_iff.mp h
    obtain ⟨os, d2, hos, h⟩ := Emit.bind_ok_iff.mp h
    cases h
    obtain ⟨os₁, d3, os₂, h₁, h₂⟩ := ih hos
    refine ⟨o :: os₁, d3, os₂, ?_, h₂⟩
    rw [emitAll, Emit.bind_of_ok ho, Emit.bind_of_ok h₁]
    rfl

theorem emitAll_at {xs : List Expr} {zs os : List Operand} {x : Expr} {d1 : Draft}
    (h : emitAll target xs d = .ok (zs, d')) (hx : xs[i]? = some x)
    (hbefore : emitAll target (xs.take i) d = .ok (os, d1)) : ∃ o d2 os',
      x.emit target d1 = .ok (o, d2) ∧ emitAll target (xs.drop (i + 1)) d2 = .ok (os', d') := by
  obtain ⟨hi, rfl⟩ := List.getElem?_eq_some_iff.mp hx
  rw [← List.take_append_drop i xs, List.drop_eq_getElem_cons hi] at h
  obtain ⟨os₁, d2, os₂, h₁, h₂⟩ := emitAll_append h
  rw [hbefore] at h₁
  cases h₁
  obtain ⟨o, d2, ho, h₂⟩ := Emit.bind_ok_iff.mp h₂
  obtain ⟨os', d3, hos, h₂⟩ := Emit.bind_ok_iff.mp h₂
  cases h₂
  exact ⟨o, d2, os', ho, hos⟩

theorem Occurs.unique (h : e.Occurs target p d w) (h' : e.Occurs target p d w') : w = w' := by
  induction p generalizing e d with
  | nil =>
    obtain ⟨hnode, hstart, hargs, hemit⟩ := h
    obtain ⟨hnode', hstart', hargs', hemit'⟩ := h'
    rw [hargs] at hargs'
    rw [hemit] at hemit'
    cases w
    cases w'
    simp_all
  | cons i p ih =>
    obtain ⟨x, os, d1, hx, hbefore, h⟩ := h
    obtain ⟨x', os', d1', hx', hbefore', h'⟩ := h'
    rw [hx] at hx'
    cases hx'
    rw [hbefore] at hbefore'
    cases hbefore'
    exact ih h h'

/-- An occurrence in the emission of an accepted tree: it is emitted like a tree of its own, between
the ends of that emission. -/
structure Occurs.Inside (target : Target) (unit : UnitId) (e : Expr) (d d' : Draft)
    (w : Occurrence) : Prop where
  mem : w.node ∈ e.subterms
  accepted : w.node.Accepted unit
  emitted : ∃ k is, w.node.Emitted target w.start w.operand w.post w.args w.pre k is
  start_le : d.next ≤ w.start.next
  pre_le : w.start.next ≤ w.pre.next
  post_le : w.pre.next ≤ w.post.next
  le_end : w.post.next ≤ d'.next

theorem Occurs.inside (h : e.Occurs target p d w) (he : e.Accepted unit)
    (hemit : e.emit target d = .ok (o, d')) : Inside target unit e d d' w := by
  induction p generalizing e d o d' with
  | nil =>
    obtain ⟨rfl, rfl, hargs, hemit'⟩ := h
    obtain ⟨args, d1, k, is, hdone⟩ := he.emitted hemit'
    have hchildren := hdone.children
    rw [hargs] at hchildren
    cases hchildren
    rw [hemit] at hemit'
    cases hemit'
    refine ⟨mem_subterms_self _, he, ⟨k, is, hdone⟩, Nat.le_refl _, ?_, ?_, Nat.le_refl _⟩
    · simpa using emitAll_le (fun x hx => he.child hx) hargs
    · rw [hdone.finished.next]
      exact Nat.le_add_right _ _
  | cons i p ih =>
    obtain ⟨x, os, d1, hx, hbefore, h⟩ := h
    have hmem : x ∈ e.children := List.mem_of_getElem? hx
    obtain ⟨args, d2, k, is, hdone⟩ := he.emitted hemit
    obtain ⟨o', d3, os', hemit', hafter⟩ := emitAll_at hdone.children hx hbefore
    have hin := ih h (he.child hmem) hemit'
    have h₁ := emitAll_le (fun y hy => he.child (List.mem_of_mem_take hy)) hbefore
    have h₂ := emitAll_le (fun y hy => he.child (List.mem_of_mem_drop hy)) hafter
    have h₃ := hdone.finished.next
    rw [opened_next] at h₁
    exact { hin with
      mem := subterms_subset hmem hin.mem
      start_le := h₁.trans hin.start_le
      le_end := by have := hin.le_end; omega }

/-- The operands of a node are emitted before its own part. -/
theorem Occurs.le_pre (h : e.Occurs target (i :: p) d w) (he : e.Accepted unit) {args : List Operand}
    {d1 : Draft} (hargs : emitAll target e.children (e.opened d) = .ok (args, d1)) :
    w.post.next ≤ d1.next := by
  obtain ⟨x, os, d2, hx, hbefore, h⟩ := h
  obtain ⟨o, d3, os', hemit, hafter⟩ := emitAll_at hargs hx hbefore
  have hin := h.inside (he.child (List.mem_of_getElem? hx)) hemit
  exact hin.le_end.trans (emitAll_le (fun y hy => he.child (List.mem_of_mem_drop hy)) hafter)

/-- The operands of a node are emitted from left to right. -/
theorem Occurs.le_sibling (h : e.Occurs target (i :: p) d w) (h' : e.Occurs target (j :: q) d w')
    (he : e.Accepted unit) (hij : i < j) : w.post.next ≤ w'.start.next := by
  obtain ⟨x, os, d1, hx, hbefore, h⟩ := h
  obtain ⟨y, os', d2, hy, hbefore', h'⟩ := h'
  have hx' : (e.children.take j)[i]? = some x := by rw [List.getElem?_take_of_lt hij, hx]
  have htake : (e.children.take j).take i = e.children.take i := by
    rw [List.take_take, Nat.min_eq_left (Nat.le_of_lt hij)]
  rw [← htake] at hbefore
  obtain ⟨o, d3, os'', hemit, hafter⟩ := emitAll_at hbefore' hx' hbefore
  have hy' := he.child (List.mem_of_getElem? hy)
  obtain ⟨o', d4, hemit', -⟩ := hy'.emit_ok target d2
  calc w.post.next ≤ d3.next := (h.inside (he.child (List.mem_of_getElem? hx)) hemit).le_end
    _ ≤ d2.next := emitAll_le
      (fun z hz => he.child (List.mem_of_mem_take (List.mem_of_mem_drop hz))) hafter
    _ ≤ w'.start.next := (h'.inside hy' hemit').start_le

/-- The path to an occurrence leads through the occurrences at its prefixes. -/
theorem Occurs.exists_ancestor (h : e.Occurs target (p ++ q) d w) (he : e.Accepted unit) :
    ∃ u, e.Occurs target p d u ∧ u.node.Occurs target q u.start w := by
  induction p generalizing e d with
  | nil =>
    obtain ⟨o, d', hemit, -⟩ := he.emit_ok target d
    obtain ⟨args, d1, k, is, hdone⟩ := he.emitted hemit
    exact ⟨⟨e, d, args, d1, o, d'⟩, ⟨rfl, rfl, hdone.children, hemit⟩, h⟩
  | cons i p ih =>
    obtain ⟨x, os, d1, hx, hbefore, h⟩ := h
    obtain ⟨u, hu, h⟩ := ih h (he.child (List.mem_of_getElem? hx))
    exact ⟨u, ⟨x, os, d1, hx, hbefore, hu⟩, h⟩

/-- Different occurrences take different registers. -/
theorem Occurs.apart (h : e.Occurs target p d w) (h' : e.Occurs target q d w')
    (he : e.Accepted unit) (hpq : p ≠ q) :
    w.post.next ≤ w'.pre.next ∨ w'.post.next ≤ w.pre.next := by
  induction p generalizing e d q with
  | nil =>
    cases q with
    | nil => exact absurd rfl hpq
    | cons j q =>
      obtain ⟨-, -, hargs, -⟩ := h
      exact .inr (h'.le_pre he hargs)
  | cons i p ih =>
    cases q with
    | nil =>
      obtain ⟨-, -, hargs, -⟩ := h'
      exact .inl (h.le_pre he hargs)
    | cons j q =>
      obtain ⟨o, d', hemit, -⟩ := he.emit_ok target d
      rcases Nat.lt_trichotomy i j with hij | rfl | hij
      · have hle := h.le_sibling h' he hij
        exact .inl (hle.trans (h'.inside he hemit).pre_le)
      · obtain ⟨x, os, d1, hx, hbefore, h⟩ := h
        obtain ⟨x', os', d1', hx', hbefore', h'⟩ := h'
        rw [hx] at hx'
        cases hx'
        rw [hbefore] at hbefore'
        cases hbefore'
        exact ih h h' (he.child (List.mem_of_getElem? hx)) fun hne => hpq (by rw [hne])
      · have hle := h'.le_sibling h he hij
        exact .inr (hle.trans (h.inside he hemit).pre_le)

theorem emitAll_cover {xs : List Expr} {os : List Operand}
    (hemit : emitAll target xs d = .ok (os, d')) (hle : d.next ≤ r) (hlt : r < d'.next) :
    ∃ i x os d1 o d2, xs[i]? = some x ∧ emitAll target (xs.take i) d = .ok (os, d1) ∧
      x.emit target d1 = .ok (o, d2) ∧ d1.next ≤ r ∧ r < d2.next := by
  induction xs generalizing d os with
  | nil =>
    cases hemit
    omega
  | cons x xs ih =>
    obtain ⟨o, d1, ho, hemit⟩ := Emit.bind_ok_iff.mp hemit
    obtain ⟨os', d2, hos, hemit⟩ := Emit.bind_ok_iff.mp hemit
    cases hemit
    by_cases hr : r < d1.next
    · exact ⟨0, x, [], d, o, d1, rfl, rfl, ho, hle, hr⟩
    · obtain ⟨i, y, os'', d3, o', d4, hy, hbefore, hemit, hr, hr'⟩ :=
        ih hos (Nat.le_of_not_lt hr)
      refine ⟨i + 1, y, o :: os'', d3, o', d4, by simpa using hy, ?_, hemit, hr, hr'⟩
      rw [List.take_succ_cons, emitAll, Emit.bind_of_ok ho, Emit.bind_of_ok hbefore]
      rfl

/-- Every register that an emission takes is taken by the own part of some occurrence. -/
theorem Accepted.exists_taker (he : e.Accepted unit) (hemit : e.emit target d = .ok (o, d'))
    (hle : d.next ≤ r) (hlt : r < d'.next) : ∃ p w, e.Occurs target p d w ∧ w.Takes r := by
  induction e using induction_children generalizing d o d' with
  | h e ih =>
    obtain ⟨args, d1, k, is, hdone⟩ := he.emitted hemit
    by_cases hr : r < d1.next
    · obtain ⟨i, x, os, d2, o', d3, hx, hbefore, hemit', hle', hlt'⟩ :=
        emitAll_cover hdone.children (by simpa using hle) hr
      have hmem : x ∈ e.children := List.mem_of_getElem? hx
      obtain ⟨p, w, h, hw⟩ := ih x hmem (he.child hmem) hemit' hle' hlt'
      exact ⟨i :: p, w, ⟨x, os, d2, hx, hbefore, h⟩, hw⟩
    · exact ⟨[], ⟨e, d, args, d1, o, d'⟩, ⟨rfl, rfl, hdone.children, hemit⟩, Nat.le_of_not_lt hr, hlt⟩

theorem Accepted.exists_owner (he : e.Accepted unit) (hemit : e.emit target d = .ok (o, d'))
    (hle : d.next ≤ r) (hlt : r < d'.next) :
    ∃ p s w, e.Occurs target p d w ∧ w.Owns s r := by
  obtain ⟨p, w, h, hw⟩ := he.exists_taker hemit hle hlt
  obtain ⟨s, hs⟩ := hw.exists_role
  exact ⟨p, s, w, h, hs⟩

theorem Occurs.owner_unique {s s' : Role} (h : e.Occurs target p d w) (hs : w.Owns s r)
    (h' : e.Occurs target q d w') (hs' : w'.Owns s' r) (he : e.Accepted unit) :
    p = q ∧ s = s' := by
  have hpq : p = q := by
    by_contra hne
    obtain ⟨h₁, h₂⟩ := hs.takes
    obtain ⟨h₃, h₄⟩ := hs'.takes
    have := h.apart h' he hne
    omega
  subst hpq
  obtain rfl := h.unique h'
  exact ⟨rfl, hs.role_unique hs'⟩

/-- The operands of a node take registers apart from each other. -/
theorem Occurs.siblings_disjoint (h : e.Occurs target (p ++ [i]) d w)
    (h' : e.Occurs target (p ++ [j]) d w') (he : e.Accepted unit) (hij : i ≠ j)
    (hr : w.Allocates r) : ¬ w'.Allocates r := by
  obtain ⟨o, d', hemit, -⟩ := he.emit_ok target d
  obtain ⟨u, hu, h⟩ := h.exists_ancestor he
  obtain ⟨u', hu', h'⟩ := h'.exists_ancestor he
  obtain rfl := hu.unique hu'
  have hnode := (hu.inside he hemit).accepted
  rintro ⟨h₃, h₄⟩
  obtain ⟨h₁, h₂⟩ := hr
  rcases Nat.lt_or_gt_of_ne hij with hij | hij
  · have := h.le_sibling h' hnode hij
    omega
  · have := h'.le_sibling h hnode hij
    omega

theorem Occurs.operand_below (h : e.Occurs target p d w) (h' : e.Occurs target (p ++ [i]) d w')
    (he : e.Accepted unit) (hr : w'.Allocates r) : r < w.pre.next := by
  obtain ⟨o, d', hemit, -⟩ := he.emit_ok target d
  obtain ⟨u, hu, h'⟩ := h'.exists_ancestor he
  obtain rfl := h.unique hu
  have hin := h.inside he hemit
  obtain ⟨k, is, hdone⟩ := hin.emitted
  exact Nat.lt_of_lt_of_le hr.2 (h'.le_pre hin.accepted hdone.children)

/-- The operands of a node and their lines mention registers taken before its own part. -/
theorem Occurs.operands_below (h : e.Occurs target p d w) (he : e.Accepted unit)
    (hext : e.ExternalFree) (hvars : e.VarsBelow d.next) :
    (∀ a ∈ w.args, a.place.Below w.pre.next) ∧
      ∀ line ∈ w.operandLines, ∀ r, line.Mentions r → r < w.pre.next := by
  obtain ⟨o, d', hemit, -⟩ := he.emit_ok target d
  have hin := h.inside he hemit
  obtain ⟨k, is, hdone⟩ := hin.emitted
  have hext' := of_mem_subterms ExternalFree.child hext hin.mem
  have hvars' := (of_mem_subterms VarsBelow.child hvars hin.mem).mono hin.start_le
  obtain ⟨js, hjs, hbound⟩ := emitAll_bounded (fun x hx => hin.accepted.child hx) hdone.children
  obtain ⟨hj, hargs⟩ := hbound (fun x hx => hext'.child hx) fun x hx => by
    simpa using hvars'.child hx
  have hlines : w.operandLines = js.map Line.instruction := by
    rw [Occurrence.operandLines, hjs.code, opened_code, List.drop_left]
  refine ⟨hargs, fun line hline r hr => ?_⟩
  rw [hlines] at hline
  obtain ⟨i, hi, rfl⟩ := List.mem_map.mp hline
  exact hj i hi r hr

end Expr

/-! ### Operations -/

theorem Finish.of_overload {target : Target} {args : List Operand} {d : Draft} {e : Expr}
    {o : Operand} {k : Nat} {is : List Instruction} {f : Overload}
    (h : Finish target args d e o k is) (hf : e.overload? = some f) :
    o = .ofType (.temp d.next) f.result ∧ k = 1 + f.scratch ∧
      is = f.lines o args (d.next + 1) := by
  cases h with
  | var | view | literal | field | external | select | threadId | window => cases hf
  | load hl => cases hl <;> cases hf
  | operation hf' =>
    rw [hf] at hf'
    cases hf'
    exact ⟨rfl, rfl, rfl⟩

/-- What an operation node takes: a register for its result, and the scratch registers right after
it. -/
theorem Occurrence.scratch_eq (w : Occurrence) {n : Nat} (hplace : w.operand.place = .temp w.pre.next)
    (hpost : w.post.next = w.pre.next + (1 + n)) : w.scratch = List.range' (w.pre.next + 1) n := by
  unfold scratch
  rw [hpost, Nat.add_sub_cancel_left, Nat.add_comm 1 n, List.range'_succ, hplace]
  rw [List.filter_cons_of_neg (by simp), List.filter_eq_self]
  intro r hr
  have := List.mem_range'_1.mp hr
  simp only [ne_eq, Place.temp.injEq, decide_eq_true_eq]
  omega

end ShaderIL
