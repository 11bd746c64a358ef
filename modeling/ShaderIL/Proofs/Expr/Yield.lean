import ShaderIL.Proofs.Expr.Cost

/-!
# The code of a tree line by line

`Expr.Costs` counts what a tree adds wherever it is emitted. The lines themselves depend on where the
draft has got to, which is its `Draft.Mark`: the next register and the literals. `Expr.Yields` says from
which mark a tree leads to which, with which lines and to which operand. Again there is one rule for
each kind of node, and the one of the operations is `Yields.operation`.
-/

namespace ShaderIL

namespace Draft

/-- How far a draft has got: its next register and its literals. -/
structure Mark where
  next : Nat
  literals : LiteralTable

/-- How far the draft has got. -/
def mark (d : Draft) : Mark := ⟨d.next, d.literals⟩

namespace Mark

/-- `n` more registers are taken. -/
def taken (p : Mark) (n : Nat) : Mark := ⟨p.next + n, p.literals⟩

/-- A literal is declared. -/
def interned (p : Mark) (bits : Quad) : Mark := ⟨p.next, p.literals.add bits⟩

end Mark

/-- The draft got to `q` by instructions. -/
structure Gets (d : Draft) (is : List Instruction) (q : Mark) (d' : Draft) : Prop where
  mark_eq : d'.mark = q
  code : d'.code.toList = d.code.toList ++ is.map .instruction

namespace Gets

variable {d d₁ d' : Draft} {is js : List Instruction} {p q : Mark}

theorem trans (h : d.Gets is p d₁) (h' : d₁.Gets js q d') : d.Gets (is ++ js) q d' :=
  ⟨h'.mark_eq, by rw [h'.code, h.code, List.map_append, List.append_assoc]⟩

theorem appended (h : d.Gets is p d₁) (js : List Instruction) :
    d.Gets (is ++ js) p (d₁.appended js) := by
  refine ⟨h.mark_eq, ?_⟩
  rw [appended_code_toList, h.code, List.map_append, List.append_assoc]

end Gets

end Draft

namespace Expr

open Draft (Mark)

variable {target : Target} {unit : UnitId} {e x y : Expr} {xs : List Expr} {t u : ValueType}
  {p q p₁ : Mark} {o a b : Operand} {os args : List Operand} {is js : List Instruction}

/-- The tree has the type; from the mark `p` its code `is` leads to `q`, and its value is in `o`. -/
structure Yields (target : Target) (unit : UnitId) (e : Expr) (t : ValueType) (p : Mark) (o : Operand)
    (is : List Instruction) (q : Mark) : Prop where
  costs : ∃ k ms, Costs target unit e t k ms
  emits : ∀ {d d' : Draft} {o' : Operand}, d.mark = p → e.emit target d = .ok (o', d') →
    o' = o ∧ d.Gets is q d'

/-- From `p` the code of the trees in order leads to `q`, and their values are in `os`. -/
inductive YieldsAll (target : Target) (unit : UnitId) :
    List Expr → Mark → List Operand → List Instruction → Mark → Prop
  | nil {p : Mark} : YieldsAll target unit [] p [] [] p
  | cons {x : Expr} {xs : List Expr} {t : ValueType} {p p₁ q : Mark} {o : Operand} {os : List Operand}
      {is js : List Instruction} (h : Yields target unit x t p o is p₁)
      (hs : YieldsAll target unit xs p₁ os js q) :
    YieldsAll target unit (x :: xs) p (o :: os) (is ++ js) q

namespace YieldsAll

theorem costs (h : YieldsAll target unit xs p os is q) :
    ∃ ts k ms, CostsAll target unit xs ts k ms := by
  induction h with
  | nil => exact ⟨_, _, _, .nil⟩
  | cons hx _ ih =>
    obtain ⟨k, ms, hcost⟩ := hx.costs
    obtain ⟨ts, k', ms', hcosts⟩ := ih
    exact ⟨_, _, _, .cons hcost hcosts⟩

theorem emits (h : YieldsAll target unit xs p os is q) {d d' : Draft} {os' : List Operand}
    (hd : d.mark = p) (hemit : emitAll target xs d = .ok (os', d')) : os' = os ∧ d.Gets is q d' := by
  induction h generalizing d os' with
  | nil =>
    cases hemit
    exact ⟨rfl, hd, by simp⟩
  | cons hx _ ih =>
    obtain ⟨o', d₁, ho, hrest⟩ := Emit.bind_ok_iff.mp hemit
    obtain ⟨os'', d₂, hos, hend⟩ := Emit.bind_ok_iff.mp hrest
    cases hend
    obtain ⟨rfl, hgets⟩ := hx.emits hd ho
    obtain ⟨rfl, hgets'⟩ := ih hgets.mark_eq hos
    exact ⟨rfl, hgets.trans hgets'⟩

theorem one (hx : Yields target unit x t p a is q) : YieldsAll target unit [x] p [a] is q := by
  have hall := YieldsAll.cons hx .nil
  rwa [List.append_nil] at hall

theorem two (hx : Yields target unit x t p a is p₁) (hy : Yields target unit y u p₁ b js q) :
    YieldsAll target unit [x, y] p [a, b] (is ++ js) q := .cons hx (one hy)

end YieldsAll

/-! ### Rules -/

namespace Yields

theorem node (o : Operand) (is : List Instruction) (n : Nat) {k : Nat} {ms : List Mnemonic}
    (hcosts : Costs target unit e t k ms) (hall : YieldsAll target unit e.children p args js p₁)
    (hown : ∀ {d o' j is'}, d.mark = p₁ → Finish target args d e o' j is' →
      o' = o ∧ is' = is ∧ j = n) :
    Yields target unit e t p o (js ++ is) ⟨p₁.next + n, e.interned p₁.literals⟩ := by
  refine ⟨⟨k, ms, hcosts⟩, fun {d d' o'} hd hemit => ?_⟩
  obtain ⟨args', d₁, j, is', hdone⟩ := hcosts.accepted.emitted hemit
  have hopened : (e.opened d).mark = p := by
    rw [← hd, Draft.mark, opened_next, opened_literals, Draft.mark]
  obtain ⟨rfl, hmark, hcode⟩ := hall.emits hopened hdone.children
  obtain ⟨rfl, rfl, rfl⟩ := hown hmark hdone.finished.form
  refine ⟨rfl, ?_, ?_⟩
  · rw [Draft.mark, hdone.finished.next, hdone.finished.literals, ← hmark]
    rfl
  · rw [hdone.finished.code, hcode, opened_code, List.map_append, List.append_assoc]

theorem var {w : Variable} {r : Nat} (hv : w.declared.valid = true) (hh : w.home = some ⟨unit, r⟩) :
    Yields target unit (.var w) w.declared p (Operand.ofType (.temp r) w.declared) [] p := by
  refine node _ [] 0 (Costs.var hv hh) .nil fun _ h => ?_
  cases h with
  | var _ hh' =>
    rw [hh] at hh'
    cases hh'
    exact ⟨rfl, rfl, rfl⟩
  | load hl => cases hl
  | operation hf => cases hf

theorem literal {l : Literal} (hl : l.error = none) (ht : l.declared.valid = true) :
    Yields target unit (.literal l) l.declared p
      (Operand.ofType (.literal (p.literals.number l.bits)) l.declared) [] (p.interned l.bits) := by
  refine node _ [] 0 (Costs.literal hl ht) .nil fun hd h => ?_
  cases h with
  | literal =>
    rw [← hd]
    exact ⟨rfl, rfl, rfl⟩
  | load hl => cases hl
  | operation hf => cases hf

theorem field {f : BufferField} {k : Nat} {ms : List Mnemonic}
    (hcosts : Costs target unit (.field f) t k ms) (ho : f.operand = .ok o) :
    Yields target unit (.field f) t p o [] p := by
  refine node o [] 0 hcosts .nil fun _ h => ?_
  cases h with
  | field ho' =>
    rw [ho] at ho'
    cases ho'
    exact ⟨rfl, rfl, rfl⟩
  | load hl => cases hl
  | operation hf => cases hf

theorem select {s : Swizzle} (hx : Yields target unit x t p a is q) (hs : selectError t s = none) :
    Yields target unit (.select x s) ⟨t.kind, s.count⟩ p (a.picked s) is q := by
  obtain ⟨k, ms, hcosts⟩ := hx.costs
  rw [← List.append_nil is]
  refine node _ [] 0 (hcosts.select hs) (.one hx) fun _ h => ?_
  cases h with
  | select ha =>
    cases ha
    exact ⟨rfl, rfl, rfl⟩
  | load hl => cases hl
  | operation hf => cases hf

theorem sample {i : Input} (hx : Yields target unit x .float2 p a is q) (hi : i.error = none) :
    Yields target unit (.sample i x) i.type p (Operand.ofType (.temp q.next) i.type)
      (is ++ [freshLine (.sample i.slot) i.type a q.next]) (q.taken 1) := by
  obtain ⟨k, ms, hcosts⟩ := hx.costs
  refine node _ [_] 1 (hcosts.sample hi) (.one hx) fun hd h => ?_
  cases h with
  | load hl =>
    cases hl with
    | sample ha =>
      cases ha
      rw [← hd]
      exact ⟨rfl, rfl, rfl⟩
  | operation hf => cases hf

theorem position (ht : positionError t = none) :
    Yields target unit (.position t) t p (positionOperand target t p.next)
      (positionLines target t p.next) (p.taken (positionLines target t p.next).length) := by
  refine node _ _ _ (Costs.position_lines ht) .nil fun hd h => ?_
  rw [← hd]
  exact h.position

theorem operation {f : Overload} (hf : e.overload? = some f)
    (hall : YieldsAll target unit e.children p args is q) :
    Yields target unit e f.result p (Operand.ofType (.temp q.next) f.result)
      (is ++ f.lines (Operand.ofType (.temp q.next) f.result) args (q.next + 1))
      (q.taken (1 + f.scratch)) := by
  obtain ⟨ts, k, ms, hcosts⟩ := hall.costs
  have hliterals : e.interned q.literals = q.literals := by
    cases e with
    | literal => cases hf
    | _ => rfl
  have hmark : q.taken (1 + f.scratch) = ⟨q.next + (1 + f.scratch), e.interned q.literals⟩ := by
    rw [hliterals]
    rfl
  rw [hmark]
  refine node _ _ (1 + f.scratch) (Costs.operation hf hcosts) hall fun hd h => ?_
  cases h with
  | operation hf' =>
    rw [hf] at hf'
    cases hf'
    rw [← hd]
    exact ⟨rfl, rfl, rfl⟩
  | load hl => cases hl <;> cases hf
  | _ => cases hf

theorem type_eq (h : Yields target unit e t p o is q) : e.type = t := by
  obtain ⟨k, ms, hcosts⟩ := h.costs
  exact hcosts.type_eq

theorem fits (h : Yields target unit e t p o is q) : o.Fits t := by
  obtain ⟨k, ms, hcosts⟩ := h.costs
  let d : Draft := { next := p.next, literals := p.literals }
  obtain ⟨o', d', hemit, -⟩ := hcosts.accepted.emit_ok target d
  obtain ⟨rfl, -⟩ := h.emits rfl hemit
  rw [← hcosts.type_eq]
  exact hcosts.accepted.emit_fits hemit

theorem binary {op : BinaryOp} {f : Overload} (hx : Yields target unit x t p a is p₁)
    (hy : Yields target unit y u p₁ b js q) (hf : op.overload? t u = some f) :
    Yields target unit (.binary op x y) f.result p (Operand.ofType (.temp q.next) f.result)
      (is ++ js ++ f.lines (Operand.ofType (.temp q.next) f.result) [a, b] (q.next + 1))
      (q.taken (1 + f.scratch)) :=
  operation (by rw [overload?, hx.type_eq, hy.type_eq, hf]) (.two hx hy)

end Yields

end Expr

end ShaderIL
