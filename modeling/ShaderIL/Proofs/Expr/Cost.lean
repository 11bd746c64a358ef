import ShaderIL.Proofs.Expr.Field

/-!
# What a tree costs

The type of a tree decides how many registers its code takes and which instructions it has, wherever it
is emitted. `Expr.Costs` is the judgement of that: the tree is accepted in a unit and canonical, and it
has the type, takes the registers and adds lines with the mnemonics that are given. There is one rule
for each kind of node; those of the operations are one, `Costs.operation`, as an overload knows its
scratch registers and its lines.
-/

namespace ShaderIL

/-! ### Positions -/

/-- The lines of a position whose registers start at `r`, one for each register. -/
def positionLines (target : Target) (t : ValueType) (r : Nat) : List Instruction :=
  if target = .compute then
    if t.kind = .float then [freshLine .itof t (leading .threadId .int4 t.components) r] else []
  else
    freshLine .floor ⟨.float, t.components⟩ (leading .windowPosition .float4 t.components) r ::
      if t.kind = .float then []
      else [freshLine t.kind.fromFloat t (Operand.ofType (.temp r) ⟨.float, t.components⟩) (r + 1)]

/-- The operand of a position whose registers start at `r`. -/
def positionOperand (target : Target) (t : ValueType) (r : Nat) : Operand :=
  if t.kind = .float then Operand.ofType (.temp r) t
  else if target = .compute then leading .threadId .int4 t.components
  else Operand.ofType (.temp (r + 1)) t

theorem length_positionLines (target : Target) (t : ValueType) (r : Nat) :
    (positionLines target t r).length =
      if t.kind = .float then 1 else if target = .compute then 0 else 2 := by
  unfold positionLines
  split_ifs <;> rfl

theorem map_mnemonic_positionLines (target : Target) (t : ValueType) (r r' : Nat) :
    (positionLines target t r).map Instruction.mnemonic =
      (positionLines target t r').map Instruction.mnemonic := by
  unfold positionLines
  split_ifs <;> rfl

theorem Finish.position {target : Target} {args : List Operand} {d : Draft} {t : ValueType}
    {o : Operand} {k : Nat} {is : List Instruction} (h : Finish target args d (.position t) o k is) :
    o = positionOperand target t d.next ∧ is = positionLines target t d.next ∧
      k = (positionLines target t d.next).length := by
  unfold positionOperand positionLines
  cases h with
  | threadId ht hk => simp [ht, hk]
  | window ht hk => simp [ht, hk]
  | load hl =>
    cases hl with
    | threadId ht hk => simp [ht, hk]
    | window ht hk => simp [ht, ← hk]
  | operation hf => cases hf

namespace Expr

variable {target : Target} {unit : UnitId} {e x : Expr} {xs : List Expr} {t : ValueType}
  {ts : List ValueType} {k k' : Nat} {ms ms' : List Mnemonic}

/-- The tree has the type, and its code takes `k` registers and has the mnemonics `ms`. -/
structure Costs (target : Target) (unit : UnitId) (e : Expr) (t : ValueType) (k : Nat)
    (ms : List Mnemonic) : Prop where
  accepted : e.Accepted unit
  canonical : e.Canonical
  type_eq : e.type = t
  emits : ∀ {d d' : Draft} {o : Operand}, e.emit target d = .ok (o, d') →
    ∃ is, d.Extends d' is ∧ d'.next = d.next + k ∧ is.map Instruction.mnemonic = ms

/-- The trees have the types, and their code in order takes `k` registers and has the mnemonics `ms`. -/
inductive CostsAll (target : Target) (unit : UnitId) :
    List Expr → List ValueType → Nat → List Mnemonic → Prop
  | nil : CostsAll target unit [] [] 0 []
  | cons {x : Expr} {xs : List Expr} {t : ValueType} {ts : List ValueType} {k k' : Nat}
      {ms ms' : List Mnemonic} (h : Costs target unit x t k ms)
      (hs : CostsAll target unit xs ts k' ms') :
    CostsAll target unit (x :: xs) (t :: ts) (k + k') (ms ++ ms')

namespace CostsAll

theorem accepted (h : CostsAll target unit xs ts k ms) : ∀ x ∈ xs, Accepted unit x := by
  induction h with
  | nil => simp
  | cons hx _ ih => exact List.forall_mem_cons.mpr ⟨hx.accepted, ih⟩

theorem canonical (h : CostsAll target unit xs ts k ms) : ∀ x ∈ xs, Canonical x := by
  induction h with
  | nil => simp
  | cons hx _ ih => exact List.forall_mem_cons.mpr ⟨hx.canonical, ih⟩

theorem emits (h : CostsAll target unit xs ts k ms) {d d' : Draft} {os : List Operand}
    (hemit : emitAll target xs d = .ok (os, d')) :
    ∃ is, d.Extends d' is ∧ d'.next = d.next + k ∧ is.map Instruction.mnemonic = ms := by
  induction h generalizing d os with
  | nil =>
    cases hemit
    exact ⟨[], .refl _, rfl, rfl⟩
  | cons hx _ ih =>
    obtain ⟨o, d₁, ho, hemit⟩ := Emit.bind_ok_iff.mp hemit
    obtain ⟨os', d₂, hos, hemit⟩ := Emit.bind_ok_iff.mp hemit
    cases hemit
    obtain ⟨is, his, hnext, hms⟩ := hx.emits ho
    obtain ⟨js, hjs, hnext', hms'⟩ := ih hos
    exact ⟨is ++ js, his.trans hjs, by omega, by rw [List.map_append, hms, hms']⟩

end CostsAll

/-! ### Rules -/

theorem Accepted.of_children (hx : ∀ x ∈ e.children, Accepted unit x)
    (hclean : e.errors (some unit) = []) (hvalid : e.type.valid = true) : e.Accepted unit := by
  refine ⟨fun y hy => ?_, hclean⟩
  rw [subterms_eq e, List.mem_cons, List.mem_flatMap] at hy
  rcases hy with rfl | ⟨x, hmem, hy⟩
  · exact hvalid
  · exact (hx x hmem).typed y hy

theorem Canonical.of_children (hx : ∀ x ∈ e.children, Canonical x)
    (hexternal : ∀ t text, e ≠ .external t text) (hfield : ∀ f, e = .field f → f.Patterned) :
    e.Canonical := by
  refine ⟨fun t text hmem => ?_, fun f hmem => ?_⟩
  · rw [subterms_eq e, List.mem_cons, List.mem_flatMap] at hmem
    rcases hmem with h | ⟨x, hchild, hmem⟩
    · exact hexternal t text h.symm
    · exact (hx x hchild).external t text hmem
  · rw [subterms_eq e, List.mem_cons, List.mem_flatMap] at hmem
    rcases hmem with h | ⟨x, hchild, hmem⟩
    · exact hfield f h.symm
    · exact (hx x hchild).fields f hmem

namespace Costs

theorem node (k' : Nat) (ms' : List Mnemonic) (hall : CostsAll target unit e.children ts k ms)
    (htype : e.type = t) (hvalid : t.valid = true) (hclean : e.errors (some unit) = [])
    (hexternal : ∀ t text, e ≠ .external t text) (hfield : ∀ f, e = .field f → f.Patterned)
    (hown : ∀ {args d o j is}, Finish target args d e o j is →
      j = k' ∧ is.map Instruction.mnemonic = ms') :
    Costs target unit e t (k + k') (ms ++ ms') := by
  have haccepted := Accepted.of_children hall.accepted hclean (by rw [htype]; exact hvalid)
  refine ⟨haccepted, Canonical.of_children hall.canonical hexternal hfield, htype,
    fun {d d' o} hemit => ?_⟩
  obtain ⟨args, d₁, j, is, hdone⟩ := haccepted.emitted hemit
  obtain ⟨js, hjs, hnext, hms⟩ := hall.emits hdone.children
  obtain ⟨rfl, hms'⟩ := hown hdone.finished.form
  have hopened : d.Extends (e.opened d) [] := by
    refine ⟨⟨by simp, by simp, by simp, ?_⟩, by simp⟩
    rw [opened_literals]
    exact .refl _
  have hstart : (e.opened d).next = d.next := opened_next e d
  have hend := hdone.finished.next
  refine ⟨js ++ is, ?_, by omega, by rw [List.map_append, hms, hms']⟩
  have hext := (hopened.trans hjs).trans hdone.finished.extends
  rwa [List.nil_append] at hext

theorem var {v : Variable} {r : Nat} (hv : v.declared.valid = true) (hh : v.home = some ⟨unit, r⟩) :
    Costs target unit (.var v) v.declared 0 [] := by
  have htype : (Expr.var v).type = v.declared := if_pos hv
  have hclean : (Expr.var v).errors (some unit) = [] := by simp [errors, Variable.errors, hv, hh]
  refine node 0 [] .nil htype hv hclean (by simp) (by simp) fun h => ?_
  cases h with
  | var => exact ⟨rfl, rfl⟩
  | load hl => cases hl
  | operation hf => cases hf

theorem literal {l : Literal} (hl : l.error = none) (ht : l.declared.valid = true) :
    Costs target unit (.literal l) l.declared 0 [] := by
  have htype : (Expr.literal l).type = l.declared := by simp [type, Literal.type, hl]
  have hclean : (Expr.literal l).errors (some unit) = [] := by simp [errors, hl]
  refine node 0 [] .nil htype ht hclean (by simp) (by simp) fun h => ?_
  cases h with
  | literal => exact ⟨rfl, rfl⟩
  | load hl => cases hl
  | operation hf => cases hf

theorem field {f : BufferField} {lanes : String} (hvalid : f.type.valid = true) (hrange : f.InRange)
    (hlanes : f.lanes = some lanes) (hspells : Text.Spells f.type lanes) :
    Costs target unit (.field f) f.type 0 [] := by
  have hlast : Text.lastPart lanes = lanes :=
    Text.lastPart_of_not_mem fun hdot => absurd (hspells.1 _ hdot) (by decide)
  obtain ⟨o, ho⟩ := (BufferField.operand_ok_iff hvalid hlanes).mpr
    ⟨hrange, .inr (by rw [hlast]; exact hspells)⟩
  have hpatterned : f.Patterned := by
    intro lanes' h'
    rw [hlanes] at h'
    cases h'
    exact hspells.1
  have htype : (Expr.field f).type = f.type := by simp [type, ho, errorOf]
  have hclean : (Expr.field f).errors (some unit) = [] := by simp [errors, ho, errorOf]
  refine node 0 [] .nil htype hvalid hclean (by simp) (fun g hg => ?_) fun h => ?_
  · cases hg
    exact hpatterned
  · cases h with
    | field => exact ⟨rfl, rfl⟩
    | load hl => cases hl
    | operation hf => cases hf

theorem select {p : Swizzle} (hx : Costs target unit x t k ms) (hp : selectError t p = none) :
    Costs target unit (.select x p) ⟨t.kind, p.count⟩ k ms := by
  have ht : t.valid = true := hx.type_eq ▸ hx.accepted.typed.type_valid
  obtain ⟨-, hvalid⟩ := selectError_eq_none (p := p) ht (by simp [hp])
  have htype : (Expr.select x p).type = ⟨t.kind, p.count⟩ := by
    simp [type, hx.type_eq, hp, ht, ValueType.vector_eq hvalid]
  have hclean : (Expr.select x p).errors (some unit) = [] := by
    simp [errors, hx.accepted.clean, hx.type_eq, hp]
  have hall : CostsAll target unit (Expr.select x p).children [t] (k + 0) (ms ++ []) := .cons hx .nil
  have hcost := node 0 [] hall htype hvalid hclean (by simp) (by simp) fun h => ?_
  · simpa using hcost
  · cases h with
    | select => exact ⟨rfl, rfl⟩
    | load hl => cases hl
    | operation hf => cases hf

theorem sample {i : Input} (hx : Costs target unit x .float2 k ms) (hi : i.error = none) :
    Costs target unit (.sample i x) i.type (k + 1) (ms ++ [.sample i.slot]) := by
  have htype : (Expr.sample i x).type = i.type := by
    simp [type, hx.type_eq, hi, coordinateError]
  have hclean : (Expr.sample i x).errors (some unit) = [] := by
    simp [errors, hx.accepted.clean, hx.type_eq, hi, coordinateError]
  have hall : CostsAll target unit (Expr.sample i x).children [.float2] (k + 0) (ms ++ []) :=
    .cons hx .nil
  rw [Nat.add_zero, List.append_nil] at hall
  refine node 1 [.sample i.slot] hall htype (Input.type_valid hi) hclean (by simp) (by simp) fun h => ?_
  cases h with
  | load hl =>
    cases hl with
    | sample => exact ⟨rfl, rfl⟩
  | operation hf => cases hf

/-- The position is read and converted as the target asks for. -/
theorem position_lines (ht : positionError t = none) : Costs target unit (.position t) t
    (positionLines target t 0).length ((positionLines target t 0).map Instruction.mnemonic) := by
  obtain ⟨hvalid, -⟩ := positionError_eq_none (t := t) (by simp [ht])
  have htype : (Expr.position t).type = t := by simp [type, ht]
  have hclean : (Expr.position t).errors (some unit) = [] := by simp [errors, ht]
  have hcost : Costs target unit (.position t) t (0 + (positionLines target t 0).length)
      ([] ++ (positionLines target t 0).map Instruction.mnemonic) := by
    refine node _ _ .nil htype hvalid hclean (by simp) (by simp) fun h => ?_
    obtain ⟨-, rfl, rfl⟩ := h.position
    exact ⟨by rw [length_positionLines, length_positionLines], map_mnemonic_positionLines _ _ _ _⟩
  rwa [Nat.zero_add] at hcost

theorem position (ht : positionError t = none) (hk : t.kind = .float) :
    Costs target unit (.position t) t 1 [if target = .compute then .itof else .floor] := by
  have hcost : Costs target unit (.position t) t _ _ := position_lines ht
  by_cases htarget : target = .compute
  · simpa [positionLines, htarget, hk, freshLine] using hcost
  · simpa [positionLines, htarget, hk, freshLine] using hcost

theorem errors_of_overload {f : Overload} (hf : e.overload? = some f)
    (hx : ∀ x ∈ e.children, x.errors (some unit) = []) : e.errors (some unit) = [] := by
  cases e with
  | unary op x | convert op t x =>
    simp only [overload?] at hf
    simp [errors, overloadError, conversionError, hf, hx x (by simp [children])]
  | binary op x y =>
    simp only [overload?] at hf
    simp [errors, overloadError, hf, hx x (by simp [children]), hx y (by simp [children])]
  | ternary op x y z =>
    simp only [overload?] at hf
    simp [errors, overloadError, hf, hx x (by simp [children]), hx y (by simp [children]),
      hx z (by simp [children])]
  | _ => cases hf

/-- An operation takes a register for its result and its scratch registers, and has the lines of its
overload. -/
theorem operation {f : Overload} (hf : e.overload? = some f)
    (hall : CostsAll target unit e.children ts k ms) :
    Costs target unit e f.result (k + (1 + f.scratch)) (ms ++ f.body.map Pattern.mnemonic) := by
  obtain ⟨hsound, -, hresult, hoperands⟩ := overload?_spec hf
  have hclean := errors_of_overload hf fun x hx => (hall.accepted x hx).clean
  have hmap : ∀ dst args start, (f.lines dst args start).map Instruction.mnemonic =
      f.body.map Pattern.mnemonic := by
    intro dst args start
    rw [Overload.lines, List.map_map]
    rfl
  refine node _ _ hall hresult.symm hsound.result_valid hclean ?_ ?_ fun h => ?_
  · rintro t text rfl
    cases hf
  · rintro g rfl
    cases hf
  · cases h with
    | operation hf' =>
      rw [hf] at hf'
      cases hf'
      exact ⟨rfl, hmap _ _ _⟩
    | load hl => cases hl <;> cases hf
    | _ => cases hf

variable {y z : Expr} {u v : ValueType} {k'' : Nat} {ms'' : List Mnemonic}

theorem overload?_convert {op : Conversion} (hx : Costs target unit x t k ms) :
    (Expr.convert op u x).overload? = op.overload? u t := by
  rw [overload?, hx.type_eq]

theorem overload?_binary {op : BinaryOp} (hx : Costs target unit x t k ms)
    (hy : Costs target unit y u k' ms') : (Expr.binary op x y).overload? = op.overload? t u := by
  rw [overload?, hx.type_eq, hy.type_eq]

theorem overload?_ternary {op : TernaryOp} (hx : Costs target unit x t k ms)
    (hy : Costs target unit y u k' ms') (hz : Costs target unit z v k'' ms'') :
    (Expr.ternary op x y z).overload? = op.overload? t u v := by
  rw [overload?, hx.type_eq, hy.type_eq, hz.type_eq]

theorem binary {op : BinaryOp} {f : Overload}
    (hx : Costs target unit x t k ms) (hy : Costs target unit y u k' ms')
    (hf : op.overload? t u = some f) :
    Costs target unit (.binary op x y) f.result (k + k' + (1 + f.scratch))
      (ms ++ ms' ++ f.body.map Pattern.mnemonic) := by
  have hall : CostsAll target unit (Expr.binary op x y).children [t, u] (k + (k' + 0))
      (ms ++ (ms' ++ [])) := .cons hx (.cons hy .nil)
  rw [Nat.add_zero, List.append_nil] at hall
  exact operation ((overload?_binary hx hy).trans hf) hall

end Costs

end Expr

end ShaderIL
