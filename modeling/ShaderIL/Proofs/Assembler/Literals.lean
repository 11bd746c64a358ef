import ShaderIL.Proofs.Assembler.Declarations
import ShaderIL.Proofs.Assembler.Registers

/-!
# The literal table

A literal is named when it is first used, and declared when the unit is closed, after any number of
further statements. In between the table only grows at its end, so a name keeps its pattern: each
occurrence of a literal in an accepted statement is emitted as a literal register, whose one declaration
in the header has the occurrence's pattern (`literals_named_and_declared`). Only patterns count.
Literals of different types with the same pattern share a register.
-/

namespace ShaderIL

namespace Expr

/-- The pattern of a literal. -/
def bits? : Expr → Option Quad
  | literal l => some l.bits
  | _ => none

/-- The patterns of the literals in a tree, from left to right. -/
def patterns (e : Expr) : List Quad := e.subterms.filterMap bits?

theorem filterMap_uses (target : Target) (e : Expr) :
    (e.uses target).filterMap Use.literal? = e.patterns := by
  induction e using induction_children with
  | h e ih =>
    have hchildren : (e.children.flatMap (uses target)).filterMap Use.literal? =
        (e.children.flatMap subterms).filterMap bits? := by
      rw [List.filterMap_flatMap, List.filterMap_flatMap]
      exact List.flatMap_congr ih
    rw [uses_eq, patterns, subterms_eq, List.filterMap_append, List.filterMap_append, hchildren]
    -- a literal has no children, so that its use comes after theirs does not matter
    cases e with
    | position t =>
      simp only [firstUses, lastUses]
      split_ifs <;> simp [List.filterMap_cons, children, bits?, Use.literal?]
    | _ => simp [List.filterMap_cons, firstUses, lastUses, children, bits?, Use.literal?]

end Expr

/-- The patterns of the literals of a statement, in the order in which they are emitted. -/
def Statement.patterns (st : Statement) : List Quad := st.exprs.reverse.flatMap Expr.patterns

/-- The patterns of the literals of the accepted statements among calls, in order. -/
def Assembler.acceptedPatterns (s : Assembler) (calls : List Call) : List Quad :=
  (s.accepted calls).flatMap fun t => t.statement.patterns

namespace Assembler

variable {s₀ start s : Assembler} {calls : List Call}

theorem filterMap_acceptedUses (s : Assembler) (calls : List Call) :
    (s.acceptedUses calls).filterMap Use.literal? = s.acceptedPatterns calls := by
  simp only [acceptedUses, acceptedPatterns, Statement.uses, Statement.patterns, List.filterMap_flatMap,
    Expr.filterMap_uses]

theorem literals_eq (hbegin : s₀.begin = .ok start) (hcalls : start.followAll calls = .ok s) :
    s.draft.literals = (start.acceptedPatterns calls).foldl LiteralTable.add {} := by
  have hliterals := congrArg Draft.literals (tables_eq hbegin hcalls)
  change s.draft.literals = _ at hliterals
  rw [hliterals, Draft.literals_noteAll, filterMap_acceptedUses]

theorem literals_inverse (hbegin : s₀.begin = .ok start) (hcalls : start.followAll calls = .ok s) :
    s.draft.literals.Inverse :=
  LiteralTable.Grows.inverse ⟨_, literals_eq hbegin hcalls⟩ LiteralTable.inverse_empty

theorem literals_order (hbegin : s₀.begin = .ok start) (hcalls : start.followAll calls = .ok s) :
    s.draft.literals.order = (start.acceptedPatterns calls).eraseDups := by
  rw [literals_eq hbegin hcalls, LiteralTable.inverse_empty.order_foldl_add]
  simp

end Assembler

/-! ### Occurrences keep their names -/

namespace Expr

variable {target : Target} {e : Expr} {d d' : Draft} {o : Operand} {p : List Nat} {w : Occurrence}

theorem emitAll_at_literals {xs : List Expr} {zs os : List Operand} {x : Expr} {i : Nat} {d₁ : Draft}
    (h : emitAll target xs d = .ok (zs, d')) (hx : xs[i]? = some x)
    (hbefore : emitAll target (xs.take i) d = .ok (os, d₁)) :
    ∃ o d₂, x.emit target d₁ = .ok (o, d₂) ∧ d₂.literals.Grows d'.literals := by
  obtain ⟨o, d₂, os', hemit, hafter⟩ := emitAll_at h hx hbefore
  obtain ⟨is, his, -⟩ := emitAll_emission hafter
  exact ⟨o, d₂, hemit, his.literals_grow⟩

/-- The table of an occurrence is the beginning of the one that the whole tree leaves. -/
theorem Occurs.literals_grow (h : e.Occurs target p d w) (hemit : e.emit target d = .ok (o, d')) :
    w.post.literals.Grows d'.literals := by
  induction p generalizing e d o d' with
  | nil =>
    obtain ⟨-, -, -, hemit'⟩ := h
    cases hemit.symm.trans hemit'
    exact .refl _
  | cons i p ih =>
    obtain ⟨x, os, d₁, hx, hbefore, h⟩ := h
    obtain ⟨args, d₂, hargs, hfinish⟩ := finish_of_emit hemit
    obtain ⟨o', d₃, hx, hrest⟩ := emitAll_at_literals hargs hx hbefore
    obtain ⟨is, his, -⟩ := finish_emission hfinish
    exact (ih h hx).trans (hrest.trans his.literals_grow)

theorem Occurs.literals_grow_args {i : Nat} (h : e.Occurs target (i :: p) d w) {args : List Operand}
    (hargs : emitAll target e.children (e.opened d) = .ok (args, d')) :
    w.post.literals.Grows d'.literals := by
  obtain ⟨x, os, d₁, hx, hbefore, h⟩ := h
  obtain ⟨o, d₂, hx, hrest⟩ := emitAll_at_literals hargs hx hbefore
  exact (h.literals_grow hx).trans hrest

/-- A literal is named by its place in the table. -/
theorem Occurs.literal_place (h : e.Occurs target p d w) {l : Literal} (hl : w.node = .literal l) :
    ∃ i, w.operand.place = .literal i ∧ w.post.literals.numbers.lookup l.bits = some i := by
  induction p generalizing e d with
  | nil =>
    obtain ⟨rfl, -, -, hemit⟩ := h
    rw [hl] at hemit
    obtain ⟨hoperand, hpost⟩ := Prod.mk.inj (Except.ok.inj hemit)
    rw [← hoperand, ← hpost]
    exact ⟨_, rfl, LiteralTable.lookup_add _ _⟩
  | cons i p ih =>
    obtain ⟨x, os, d₁, -, -, h⟩ := h
    exact ih h

end Expr

section Assignment

variable {target : Target} {e : Expr} {d d' : Draft} {u : Unit}

theorem emitMove_literals {dst value : Operand} (h : emitMove dst value d = .ok (u, d')) :
    d.literals.Grows d'.literals := by
  obtain ⟨i, hi, -⟩ := emitMove_emission h
  exact hi.literals_grow

/-- An assignment emits its value, or only the operands of the value. What they leave in the table
stays there. -/
theorem emitTo_literals {dst : Operand} {direct : Option Overload}
    (hdirect : ∀ f, direct = some f → e.overload? = some f)
    (h : emitTo target dst direct e d = .ok (u, d')) :
    (∃ o d₁, e.emit target d = .ok (o, d₁) ∧ d₁.literals.Grows d'.literals) ∨
    (direct.isSome ∧ ∃ args d₁, Expr.emitAll target e.children (e.opened d) = .ok (args, d₁) ∧
      d₁.literals.Grows d'.literals) := by
  cases direct with
  | none =>
    obtain ⟨value, d₁, hvalue, h⟩ := Emit.bind_ok_iff.mp h
    exact .inl ⟨value, d₁, hvalue, emitMove_literals h⟩
  | some f =>
    have hf := hdirect f rfl
    obtain ⟨args, d₁, hargs, h⟩ := Emit.bind_ok_iff.mp h
    obtain ⟨-, -, -, hoperands⟩ := Expr.overload?_spec hf
    obtain ⟨is, his⟩ := Overload.emitInto_emission (Expr.overload_sampleFree hf) h
    rw [hoperands, ← Expr.opened_of_overload hf d] at hargs
    exact .inr ⟨rfl, args, d₁, hargs, his.literals_grow⟩

theorem LValue.store_literals {dst : LValue} (h : dst.store target e d = .ok (u, d')) :
    (∃ o d₁, e.emit target d = .ok (o, d₁) ∧ d₁.literals.Grows d'.literals) ∨
    ((dst.direct? e).isSome ∧ ∃ args d₁, Expr.emitAll target e.children (e.opened d) = .ok (args, d₁) ∧
      d₁.literals.Grows d'.literals) := by
  cases dst with
  | var v =>
    obtain ⟨dst, d₁, hdst, h⟩ := Emit.bind_ok_iff.mp h
    obtain ⟨-, rfl⟩ := Variable.operand_place hdst
    exact emitTo_literals (fun f => Expr.direct_overload) h
  | view v mask =>
    obtain ⟨lanes, d₁, hlanes, h⟩ := Emit.bind_ok_iff.mp h
    obtain ⟨hok, rfl⟩ := orFault_ok_iff.mp hlanes
    obtain ⟨dst, d₂, hdst, h⟩ := Emit.bind_ok_iff.mp h
    obtain ⟨-, rfl⟩ := Variable.viewOperand_place hdst
    have hdirect : (view v mask).direct? e =
        if lanes.isIdentity then e.direct? (v.viewType mask) else none := by simp [direct?, hok]
    rw [hdirect]
    refine emitTo_literals (fun f hf => ?_) h
    split_ifs at hf
    exact Expr.direct_overload hf
  | element t a =>
    obtain ⟨value, d₁, hvalue, h⟩ := Emit.bind_ok_iff.mp h
    refine .inl ⟨value, d₁, hvalue, ?_⟩
    rw [Emit.bind_of_ok (Draft.useGlobal_eq d₁)] at h
    obtain ⟨base, offset⟩ := a
    cases base with
    | none =>
      have hmove : emitMove (elementAtOperand t offset) value (d₁.note .global) = .ok (u, d') := h
      have hgrows := emitMove_literals hmove
      exact hgrows
    | some b =>
      obtain ⟨base, d₂, hbase, hmove⟩ := Emit.bind_ok_iff.mp h
      obtain ⟨is, his, -⟩ := Expr.emit_emission hbase
      exact his.literals_grow.trans (emitMove_literals hmove)

theorem LValue.store_address_literals {t : ValueType} {b : Expr} {offset : Int64} {o : Operand}
    {d₁ : Draft} (h : (LValue.element t ⟨some b, offset⟩).store target e d = .ok (u, d'))
    (hvalue : e.emit target d = .ok (o, d₁)) : ∃ base d₂,
      b.emit target { d₁ with usesGlobal := true } = .ok (base, d₂) ∧ d₂.literals.Grows d'.literals := by
  obtain ⟨value, d₃, hvalue', h⟩ := Emit.bind_ok_iff.mp h
  cases hvalue.symm.trans hvalue'
  rw [Emit.bind_of_ok (Draft.useGlobal_eq d₁)] at h
  obtain ⟨base, d₂, hbase, hmove⟩ := Emit.bind_ok_iff.mp h
  exact ⟨base, d₂, hbase, emitMove_literals hmove⟩

end Assignment

/-- The table of an occurrence in a step is the beginning of the one after the step. -/
theorem Step.Occurs.literals_grow {t : Step} {root : Root} {p : List Nat} {w : Occurrence}
    (ht : t.pre.Does t.statement t.outcome t.post) (h : t.Occurs root p w) :
    w.post.literals.Grows t.post.draft.literals := by
  obtain ⟨e, d, hemits, hroot, hocc⟩ := h
  obtain ⟨s, st, o, s'⟩ := t
  change Assembler.Does s st o s' at ht
  cases hemits with
  | value he =>
    cases ht with
    | declare | comment => cases he
    | word hw =>
      rw [Statement.value_of_word hw] at he
      cases he
    | eval herr hemit =>
      cases he
      exact hocc.literals_grow hemit
    | test htest herr htype hemit =>
      cases (Statement.value_of_test htest).1.symm.trans he
      have hgrows := hocc.literals_grow hemit
      exact hgrows
    | assign herr hstore =>
      cases he
      rcases LValue.store_literals hstore with ⟨o, d₁, hemit, hrest⟩ | ⟨hdirect, args, d₁, hargs, hrest⟩
      · exact (hocc.literals_grow hemit).trans hrest
      · cases p with
        | nil =>
          -- a value that writes the destination straight away does not occur itself
          rw [Option.isSome_iff_ne_none] at hdirect
          exact absurd (hroot rfl rfl) hdirect
        | cons i p => exact (hocc.literals_grow_args hargs).trans hrest
  | address hst hemit =>
    cases hst
    cases ht with
    | word hw => cases hw
    | test htest => cases htest
    | assign herr hstore =>
      obtain ⟨base, d₂, hbase, hrest⟩ := LValue.store_address_literals hstore hemit
      exact (hocc.literals_grow hbase).trans hrest

namespace Assembler

variable {s₀ start s : Assembler} {calls : List Call}

/-- **Literals keep the names they get.** After any calls in a unit the numbers and the order of the
literals are inverse to each other, so that no pattern stands in the order twice. The order lists the
patterns of the literals of the accepted statements by their first use, from left to right in each tree
and the value before its destination, and further calls only add to its end. Each occurrence of a
literal is emitted as a literal register whose number is that of its pattern, and the code names no
other literal registers. In a closed unit the header has one line for each register, which declares the
four words of its pattern. -/
theorem literals_named_and_declared (hbegin : s₀.begin = .ok start)
    (hcalls : start.followAll calls = .ok s) :
    (∀ bits i, s.draft.literals.numbers.lookup bits = some i ↔
      s.draft.literals.order[i]? = some bits) ∧
    s.draft.literals.order.Nodup ∧
    s.draft.literals.order = (start.acceptedPatterns calls).eraseDups ∧
    (∀ more s', s.followAll more = .ok s' →
      s.draft.literals.order <+: s'.draft.literals.order ∧
      ∀ bits i, s.draft.literals.numbers.lookup bits = some i →
        s'.draft.literals.numbers.lookup bits = some i) ∧
    (∀ t ∈ start.accepted calls, ∀ root path w l, t.Occurs root path w → w.node = .literal l →
      ∃ i, w.operand.place = .literal i ∧ w.operand.name = "l" ++ toString i ∧
        s.draft.literals.order[i]? = some l.bits) ∧
    (∀ i, .literal i ∈ s.references → ∃ bits ∈ start.acceptedPatterns calls,
      s.draft.literals.order[i]? = some bits) ∧
    (s.phase = .finalized → ∀ (i : Nat) (bits : Quad), s.draft.literals.order[i]? = some bits →
      s.headerLinesFrom ("dcl_literal l" ++ toString i ++ ",") =
        ["dcl_literal l" ++ toString i ++ ", " ++ Text.hexWord bits.x ++ ", " ++
          Text.hexWord bits.y ++ ", " ++ Text.hexWord bits.z ++ ", " ++ Text.hexWord bits.w ++
          "\n"]) := by
  have hinverse := literals_inverse hbegin hcalls
  refine ⟨hinverse, hinverse.nodup, literals_order hbegin hcalls, fun more s' hmore => ?_,
    fun t ht root path w l hocc hl => ?_, fun i hi => ?_, fun hphase i bits hbits => ?_⟩
  · have hgrows := (followAll_accepts hmore).logs.literals_grow
    exact ⟨hgrows.order, fun bits i => hgrows.lookup⟩
  · have hgrows := (hocc.literals_grow ((followAll_accepts hcalls).does t ht)).trans
      ((followAll_accepts hcalls).literals t ht)
    obtain ⟨e, d, -, -, hocc⟩ := hocc
    obtain ⟨i, hplace, hnumber⟩ := hocc.literal_place hl
    exact ⟨i, hplace, congrArg Place.text hplace, (hinverse _ _).mp (hgrows.lookup hnumber)⟩
  · obtain ⟨bits, hbits, hnumber⟩ := coveredBy_of_mem_references hbegin hcalls hi
    rw [← filterMap_acceptedUses]
    exact ⟨bits, Use.mem_filterMap_literal.mpr hbits, (hinverse _ _).mp hnumber⟩
  · rw [← Draft.literalLine_eq]
    exact headerLinesFrom_literalFront hphase hbits

/-- The premises can be met: an unsigned and a signed literal have the same pattern, and another
literal stands between them. The two share the first register. -/
theorem literals_of_shared_pattern :
    let start : Assembler := { phase := .building, generation := 1 }
    let one : Quad := ⟨1, 1, 1, 1⟩
    let two : Quad := ⟨2, 2, 2, 2⟩
    let calls : List Call := [.statement (.eval (.literal ⟨.uint1, one, none⟩)),
      .statement (.eval (.literal ⟨.uint1, two, none⟩)),
      .statement (.eval (.literal ⟨.int1, one, none⟩)), .finish]
    ∃ s, ({} : Assembler).begin = .ok start ∧ start.followAll calls = .ok s ∧ s.phase = .finalized ∧
      s.draft.literals.order = [one, two] ∧ (∃ t ∈ start.accepted calls, ∃ w,
        t.Occurs .value [] w ∧ w.node = .literal ⟨.int1, one, none⟩ ∧
          w.operand.place = .literal 0) ∧
      s.headerLinesFrom "dcl_literal l0," =
        ["dcl_literal l0, 0x00000001, 0x00000001, 0x00000001, 0x00000001\n"] := by
  intro start one two calls
  have hclosed : (start.followAll calls).toOption.map phase = some .finalized := by
    decide +kernel +revert
  have hpatterns : (start.acceptedPatterns calls).eraseDups = [one, two] := by
    decide +kernel +revert
  have hline : "dcl_literal l" ++ toString 0 ++ ", " ++ Text.hexWord one.x ++ ", " ++
      Text.hexWord one.y ++ ", " ++ Text.hexWord one.z ++ ", " ++ Text.hexWord one.w ++ "\n" =
      "dcl_literal l0, 0x00000001, 0x00000001, 0x00000001, 0x00000001\n" := by
    decide +kernel +revert
  have hfront : "dcl_literal l" ++ toString 0 ++ "," = "dcl_literal l0," := by decide +kernel
  have hsigned : ∃ t ∈ start.accepted calls,
      t.statement.value? = some (.literal ⟨.int1, one, none⟩) ∧ t.statement.direct?.isNone = true := by
    decide +kernel +revert
  obtain ⟨t, ht, hvalue, hdirect⟩ := hsigned
  have hbegin : ({} : Assembler).begin = .ok start := rfl
  cases hcalls : start.followAll calls with
  | error e =>
    rw [hcalls] at hclosed
    cases hclosed
  | ok s =>
    rw [hcalls] at hclosed
    have hphase : s.phase = .finalized := Option.some.inj hclosed
    obtain ⟨hinverse, -, horder, -, hoccurs, -, hheader⟩ :=
      literals_named_and_declared hbegin hcalls
    have hliterals : s.draft.literals.order = [one, two] := horder.trans hpatterns
    obtain ⟨w, hw, hnode⟩ : ∃ w, t.Occurs .value [] w ∧ w.node = .literal ⟨.int1, one, none⟩ :=
      ⟨⟨_, _, [], _, _, _⟩, ⟨_, _, .value hvalue, fun _ _ => Option.isNone_iff_eq_none.mp hdirect, rfl,
        rfl, rfl, rfl⟩, rfl⟩
    obtain ⟨i, hplace, -, hbits⟩ := hoccurs t ht _ _ w _ hw hnode
    have hzero : s.draft.literals.order[0]? = some one := by
      rw [hliterals]
      rfl
    have hi : i = 0 :=
      Option.some.inj (((hinverse one i).mpr hbits).symm.trans ((hinverse one 0).mpr hzero))
    rw [hi] at hplace
    have hdeclared := hheader hphase 0 one hzero
    rw [hline, hfront] at hdeclared
    exact ⟨s, hbegin, rfl, hphase, hliterals, ⟨t, ht, w, hw, hnode, hplace⟩, hdeclared⟩

end Assembler

end ShaderIL
