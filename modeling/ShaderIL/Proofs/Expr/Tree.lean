import ShaderIL.Expr.Emit
import ShaderIL.Expr.Validate
import ShaderIL.Proofs.Draft

/-!
# Expressions as trees

`Expr.children` lists the expressions directly under a node in the order in which they are emitted,
`Expr.subterms` all expressions of a tree with the tree itself, `Expr.vars` the variables it
mentions. Statements about trees are proved by `Expr.induction_children`, which has one case: what
holds of a node if it holds of its children. Errors are reported in the order of the children
(`Expr.errors_in_order`).

Emission follows the same shape (`Expr.emit_eq`): the children from left to right, then
`Expr.finish`, the node's own part on the operands of its children.
-/

namespace ShaderIL

namespace Expr

/-- The expressions directly under a node, in the order in which they are emitted. -/
def children : Expr → List Expr
  | unary _ x | convert _ _ x | select x _ | unselected x _ => [x]
  | binary _ x y => [x, y]
  | ternary _ x y z => [x, y, z]
  | sample _ c => [c]
  | element _ b _ => [b]
  | _ => []

/-- A tree and all expressions in it. -/
def subterms (e : Expr) : List Expr :=
  e :: match e with
    | unary _ x | convert _ _ x | select x _ | unselected x _ => x.subterms
    | binary _ x y => x.subterms ++ y.subterms
    | ternary _ x y z => x.subterms ++ y.subterms ++ z.subterms
    | sample _ c => c.subterms
    | element _ b _ => b.subterms
    | _ => []

/-- The variables a tree mentions, whole or in parts. -/
def vars (e : Expr) : List Variable :=
  e.subterms.flatMap fun x => match x with
    | var v | view v _ => [v]
    | _ => []

/-- Every expression of the tree has a type. -/
def WellTyped (e : Expr) : Prop := ∀ x ∈ e.subterms, x.type.valid = true

/-- No operand of the tree is given by its text. -/
def ExternalFree (e : Expr) : Prop := ∀ t text, external t text ∉ e.subterms

theorem induction_children {P : Expr → Prop} (h : ∀ e, (∀ x ∈ e.children, P x) → P e) :
    ∀ e, P e := by
  intro e
  induction e with
  | unary _ x ih | convert _ _ x ih | select x _ ih | unselected x _ ih | sample _ x ih
  | element _ x _ ih => exact h _ fun y hy => List.mem_singleton.mp hy ▸ ih
  | binary _ x y ihx ihy =>
    refine h _ fun w hw => ?_
    simp only [children, List.mem_cons, List.not_mem_nil, or_false] at hw
    rcases hw with rfl | rfl
    · exact ihx
    · exact ihy
  | ternary _ x y z ihx ihy ihz =>
    refine h _ fun w hw => ?_
    simp only [children, List.mem_cons, List.not_mem_nil, or_false] at hw
    rcases hw with rfl | rfl | rfl
    · exact ihx
    · exact ihy
    · exact ihz
  | absent | literal | external | field | var | view | elementAt | position =>
    exact h _ fun y hy => absurd hy List.not_mem_nil

theorem subterms_eq (e : Expr) : e.subterms = e :: e.children.flatMap subterms := by
  cases e <;> simp [subterms, children]

theorem mem_subterms_self (e : Expr) : e ∈ e.subterms := by simp [subterms_eq e]

theorem subterms_subset {e x : Expr} (hx : x ∈ e.children) : x.subterms ⊆ e.subterms := by
  intro y hy
  rw [subterms_eq e]
  exact List.mem_cons_of_mem _ (List.mem_flatMap.mpr ⟨x, hx, hy⟩)

/-- What a node hands down to its children holds in the whole tree. -/
theorem of_mem_subterms {P : Expr → Prop} (hchild : ∀ {e x}, P e → x ∈ e.children → P x) {e x : Expr}
    (h : P e) (hx : x ∈ e.subterms) : P x := by
  induction e using induction_children with
  | h e ih =>
    rw [subterms_eq e, List.mem_cons, List.mem_flatMap] at hx
    rcases hx with rfl | ⟨y, hy, hx⟩
    · exact h
    · exact ih y hy (hchild h hy) hx

theorem vars_subset {e x : Expr} (hx : x ∈ e.children) : x.vars ⊆ e.vars := by
  intro v hv
  obtain ⟨y, hy, hv⟩ := List.mem_flatMap.mp hv
  exact List.mem_flatMap.mpr ⟨y, subterms_subset hx hy, hv⟩

theorem WellTyped.type_valid {e : Expr} (h : e.WellTyped) : e.type.valid = true :=
  h e e.mem_subterms_self

theorem WellTyped.ne_unselected {e : Expr} (h : e.WellTyped) (x : Expr) (cause : Error) :
    e ≠ unselected x cause := by
  rintro rfl
  have hv := h.type_valid
  simp only [type] at hv
  exact absurd hv (by decide)

theorem WellTyped.child {e x : Expr} (h : e.WellTyped) (hx : x ∈ e.children) : x.WellTyped :=
  fun y hy => h y (subterms_subset hx hy)

theorem ExternalFree.child {e x : Expr} (h : e.ExternalFree) (hx : x ∈ e.children) :
    x.ExternalFree :=
  fun t text hy => h t text (subterms_subset hx hy)

theorem wellTyped_iff (e : Expr) :
    e.WellTyped ↔ e.type.valid = true ∧ ∀ x ∈ e.children, x.WellTyped := by
  refine ⟨fun h => ⟨h.type_valid, fun x hx => h.child hx⟩, fun ⟨h, hc⟩ x hx => ?_⟩
  rw [subterms_eq e, List.mem_cons, List.mem_flatMap] at hx
  rcases hx with rfl | ⟨y, hy, hx⟩
  · exact h
  · exact hc y hy x hx

/-! ### Errors of a tree -/

/-- The error of what a node reads from: the input of a sample, the view of the global buffer. -/
def resourceError : Expr → Option Error
  | sample i _ => i.error
  | element t _ _ => globalError t
  | _ => none

/-- The error of a base that can be no address. It stands in place of the errors of the base. -/
def baseError : Expr → Option Error
  | element _ b _ => b.addressError b.type
  | _ => none

/-- A node reports its resource, then its operands from left to right, then at most one error of its
own, which is the same in every unit. -/
theorem errors_in_order {e : Expr} (h : e.children ≠ []) (hbase : e.baseError = none) :
    ∃ own : Option Error, ∀ unit,
      e.errors unit = e.resourceError.toList ++ e.children.flatMap (errors unit) ++ own.toList := by
  cases e with
  | unary op x =>
    exact ⟨overloadError (.unary op) [x.type] (op.overload? x.type), fun unit => by
      simp [errors, resourceError, children]⟩
  | convert op t x =>
    exact ⟨conversionError op t x.type, fun unit => by simp [errors, resourceError, children]⟩
  | binary op x y =>
    exact ⟨overloadError (.binary op) [x.type, y.type] (op.overload? x.type y.type), fun unit => by
      simp [errors, resourceError, children]⟩
  | ternary op x y z =>
    exact ⟨overloadError (.ternary op) [x.type, y.type, z.type]
      (op.overload? x.type y.type z.type), fun unit => by simp [errors, resourceError, children]⟩
  | select x p =>
    exact ⟨selectError x.type p, fun unit => by simp [errors, resourceError, children]⟩
  | unselected x cause =>
    exact ⟨some cause, fun unit => by simp [errors, resourceError, children]⟩
  | sample i c =>
    exact ⟨coordinateError c.type, fun unit => by simp [errors, resourceError, children]⟩
  | element t b offset =>
    have hb : b.addressError b.type = none := hbase
    exact ⟨none, fun unit => by simp [errors, resourceError, children, hb]⟩
  | _ => exact absurd rfl h

theorem baseError_mem_errors {unit : Option UnitId} {e : Expr} {cause : Error}
    (h : e.baseError = some cause) : cause ∈ e.errors unit := by
  cases e with
  | element t b offset =>
    have hb : b.addressError b.type = some cause := h
    simp [errors, hb]
  | _ => cases h

theorem errors_subset_of_child {unit : Option UnitId} {e x : Expr} (hbase : e.baseError = none)
    (hx : x ∈ e.children) : x.errors unit ⊆ e.errors unit := by
  obtain ⟨own, herrors⟩ := errors_in_order (List.ne_nil_of_mem hx) hbase
  intro cause hcause
  rw [herrors unit]
  exact List.mem_append_left _ (List.mem_append_right _ (List.mem_flatMap.mpr ⟨x, hx, hcause⟩))

theorem errors_child {unit : Option UnitId} {e x : Expr} (h : e.errors unit = [])
    (hx : x ∈ e.children) : x.errors unit = [] := by
  cases hbase : e.baseError with
  | none => exact List.subset_nil.mp (h ▸ errors_subset_of_child hbase hx)
  | some cause => exact absurd (h ▸ baseError_mem_errors hbase) List.not_mem_nil

/-- A tree that a unit takes: it has no errors there and every expression of it has a type. -/
structure Accepted (unit : UnitId) (e : Expr) : Prop where
  typed : e.WellTyped
  clean : e.errors (some unit) = []

theorem Accepted.child {unit : UnitId} {e x : Expr} (h : e.Accepted unit) (hx : x ∈ e.children) :
    x.Accepted unit :=
  ⟨h.typed.child hx, errors_child h.clean hx⟩

end Expr

theorem Variable.errors_eq_nil {unit : UnitId} {v : Variable} (h : v.errors (some unit) = []) :
    v.declared.valid = true ∧ ∃ r, v.home = some ⟨unit, r⟩ := by
  unfold errors at h
  split_ifs at h with hv
  · cases hh : v.home with
    | none => simp [hh] at h
    | some home =>
      obtain ⟨u, r⟩ := home
      simp only [hh, Option.any_some, bne_iff_ne, ne_eq, ite_not] at h
      split_ifs at h with hu
      subst hu
      exact ⟨by simpa using hv, r, rfl⟩

/-- Being no address is no error of a variable. -/
theorem Variable.baseError_not_mem_errors {unit : Option UnitId} {e : Expr} {cause : Error}
    (h : e.baseError = some cause) (v : Variable) : cause ∉ v.errors unit := by
  have hcause : cause = .absentAddress ∨ ∃ t, cause = .addressType t := by
    cases e with
    | element t b offset =>
      simp only [Expr.baseError, Expr.addressError, addressTypeError] at h
      split_ifs at h
      · exact .inr ⟨_, (Option.some_inj.mp h).symm⟩
      · exact .inl (Option.some_inj.mp h).symm
    | _ => cases h
  unfold errors
  rcases hcause with rfl | ⟨t, rfl⟩ <;> split_ifs <;> cases v.home <;> simp

namespace Expr

/-- A tree reports the errors of its variables, or else something that is none of any variable. -/
theorem errors_of_mem_vars {unit : Option UnitId} {e : Expr} {v : Variable} (hv : v ∈ e.vars) :
    v.errors unit ⊆ e.errors unit ∨ ∃ cause ∈ e.errors unit, ∀ u : Variable, cause ∉ u.errors unit := by
  induction e using induction_children with
  | h e ih =>
    rw [vars, List.mem_flatMap] at hv
    obtain ⟨y, hy, hv⟩ := hv
    rw [subterms_eq e, List.mem_cons, List.mem_flatMap] at hy
    rcases hy with rfl | ⟨x, hx, hy⟩
    · cases y <;> simp only [List.not_mem_nil, List.mem_singleton] at hv
      · subst hv
        exact .inl (List.Subset.refl _)
      · subst hv
        exact .inl (List.subset_append_left _ _)
    · cases hbase : e.baseError with
      | some cause =>
        exact .inr ⟨cause, baseError_mem_errors hbase, Variable.baseError_not_mem_errors hbase⟩
      | none =>
        have hsubset : x.errors unit ⊆ e.errors unit := errors_subset_of_child hbase hx
        refine (ih x hx (List.mem_flatMap.mpr ⟨y, hy, hv⟩)).imp (fun h => List.Subset.trans h hsubset) ?_
        rintro ⟨cause, hcause, hnone⟩
        exact ⟨cause, hsubset hcause, hnone⟩

theorem errors_variable {unit : Option UnitId} {e : Expr} (h : e.errors unit = []) :
    ∀ v ∈ e.vars, v.errors unit = [] := by
  intro v hv
  rcases errors_of_mem_vars hv with hsubset | ⟨cause, hcause, -⟩
  · exact List.subset_nil.mp (h ▸ hsubset)
  · exact absurd (h ▸ hcause) List.not_mem_nil

theorem Accepted.variable_home {unit : UnitId} {e : Expr} (h : e.Accepted unit) :
    ∀ v ∈ e.vars, v.declared.valid = true ∧ ∃ r, v.home = some ⟨unit, r⟩ :=
  fun v hv => Variable.errors_eq_nil (errors_variable h.clean v hv)

/-- The registers of the variables of the tree lie below `n`. -/
def VarsBelow (n : Nat) (e : Expr) : Prop :=
  ∀ v ∈ e.vars, ∀ h, v.home = some h → h.register < n

theorem VarsBelow.child {n : Nat} {e x : Expr} (h : e.VarsBelow n) (hx : x ∈ e.children) : x.VarsBelow n :=
  fun v hv => h v (vars_subset hx hv)

theorem VarsBelow.mono {n k : Nat} {e : Expr} (h : e.VarsBelow n) (hk : n ≤ k) : e.VarsBelow k :=
  fun v hv home hh => Nat.lt_of_lt_of_le (h v hv home hh) hk

/-! ### The node's own part of emission -/

/-- What is noted in the draft before the children are emitted. -/
def opened : Expr → Draft → Draft
  | element _ _ _, d => { d with usesGlobal := true }
  | _, d => d

@[simp] theorem opened_next (e : Expr) (d : Draft) : (e.opened d).next = d.next := by
  cases e <;> rfl

@[simp] theorem opened_code (e : Expr) (d : Draft) : (e.opened d).code = d.code := by
  cases e <;> rfl

@[simp] theorem opened_instructions (e : Expr) (d : Draft) :
    (e.opened d).instructions = d.instructions := by
  cases e <;> rfl

@[simp] theorem opened_literals (e : Expr) (d : Draft) : (e.opened d).literals = d.literals := by
  cases e <;> rfl

/-- Append the code of a node on the operands of its children. -/
def finish (target : Target) : Expr → List Operand → Emit Operand
  | select _ p, [a] => a.select p
  | literal l, _ => do
    let place ← Draft.intern l.bits
    return Operand.ofType place l.declared
  | external t text, _ => orFault (externalOperand .named t text)
  | field f, _ => do
    Draft.useBuffer f.slot f.size
    orFault f.operand
  | var v, _ => v.operand
  | view v mask, _ => v.viewOperand mask
  | sample i _, [a] => do
    Draft.useInput i.slot i.type
    emitFresh (.sample i.slot) i.type a
  | element t _ offset, [a] => emitFresh .mov t (elementOperand t a offset)
  | elementAt t offset, _ => do
    Draft.useGlobal
    emitFresh .mov t (elementAtOperand t offset)
  | position t, _ => emitPosition target t
  | absent, _ => throw .absentOperand
  | e, args => Overload.emitFresh e.overload? args

/-- Emission is that of the children from left to right, then the node's own part. -/
theorem emit_eq (target : Target) {e : Expr} (he : ∀ x cause, e ≠ unselected x cause) (d : Draft) :
    e.emit target d = (emitAll target e.children >>= e.finish target) (e.opened d) := by
  cases e
  case unselected x cause => exact absurd rfl (he x cause)
  all_goals simp only [emit, children, emitAll, bind_assoc, pure_bind, finish, opened]
  all_goals rfl

end Expr

end ShaderIL
