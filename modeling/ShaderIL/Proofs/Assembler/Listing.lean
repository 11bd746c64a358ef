import ShaderIL.Proofs.Assembler.Acceptance
import ShaderIL.Proofs.Text.Reading

/-!
# The code of a unit as text

The places in the lines of a statement are of any sort that the leaves of its trees are of
(`Does.lines_in`). So the code of statements over canonical trees is on plain places, and the text of a
closed unit is read back as its lines: those of a run (`Run.readAll?_code`), or those of the accepted
statements among any calls (`Accepts.codeIn`, `readAll?_code`). `Step.printed` is the lines of a step
as they stand in the text. A field whose lanes are no pattern is not canonical and can bring other text
into the code; `BufferField.stray` brings in one more source.
-/

namespace ShaderIL

/-- The lines of a step as they stand in the text of the code. -/
def Step.printed (t : Step) : List Line := t.lines.map Line.flattened

/-- The trees of the statement have types throughout, give no operand by its text, and have fields whose
lanes are patterns. -/
def Statement.Canonical (st : Statement) : Prop := ∀ e ∈ st.exprs, e.WellTyped ∧ e.Canonical

theorem Line.references_flattened (l : Line) : l.flattened.references = l.references := by
  cases l <;> rfl

namespace Assembler

variable {S : PlaceSort} {s s' : Assembler} {st : Statement} {o : Outcome}

/-- The code of the unit is on places of the sort. -/
def CodeIn (S : PlaceSort) (s : Assembler) : Prop := ∀ l ∈ s.draft.code.toList, l.In S

theorem Does.lines_in (h : Does s st o s') (hst : ∀ e ∈ st.exprs, e.LeavesIn S) :
    ∀ l ∈ Step.lines ⟨s, st, o, s'⟩, l.In S := by
  have hcode : ∀ {is : List Instruction}, (∀ i ∈ is, i.In S) → ∀ l ∈ is.map Line.instruction, l.In S := by
    intro is his l hl
    obtain ⟨i, hi, rfl⟩ := List.mem_map.mp hl
    exact his i hi
  cases h with
  | declare =>
    rw [Step.lines_eq (l := []) (by simp)]
    simp
  | @comment text =>
    rw [Step.lines_eq (l := [.comment text]) (by simp), List.forall_mem_singleton]
    trivial
  | @word _ w flow =>
    rw [Step.lines_eq (l := [.word w]) (by simp [writeLine]), List.forall_mem_singleton]
    trivial
  | @eval e c d herr hemit =>
    obtain ⟨is, his, hin, -⟩ := Expr.emit_stays (hst e (by simp [Statement.exprs])) hemit
    rw [Step.lines_eq his]
    exact hcode hin
  | @assign dst e d herr hstore =>
    obtain ⟨is, his, hin, -⟩ := LValue.store_stays (hst e (by simp [Statement.exprs]))
      (hst dst.toExpr (by simp [Statement.exprs])) hstore
    rw [Step.lines_eq his]
    exact hcode hin
  | @test _ k cond c d flow ht herr htype hemit =>
    obtain ⟨is, his, hin, hc⟩ :=
      Expr.emit_stays (hst cond (by simp [Statement.exprs_of_test ht])) hemit
    rw [Step.lines_eq (l := is.map .instruction ++ [.test k c.source]) (by simp [writeLine, his]),
      List.forall_mem_append, List.forall_mem_singleton]
    exact ⟨hcode hin, S.code_of_operand _ (hc c (List.mem_singleton_self c))⟩

theorem Does.codeIn (h : Does s st o s') (hst : ∀ e ∈ st.exprs, e.LeavesIn S) (hs : s.CodeIn S) :
    s'.CodeIn S := by
  have hcode : s'.draft.code.toList = s.draft.code.toList ++ Step.lines ⟨s, st, o, s'⟩ :=
    Step.code_eq (t := ⟨s, st, o, s'⟩) h
  rw [CodeIn, hcode, List.forall_mem_append]
  exact ⟨hs, h.lines_in hst⟩

theorem execAll_codeIn {sts : List Statement} {os : List Outcome} (h : s.execAll sts = .ok (os, s'))
    (hsts : ∀ st ∈ sts, ∀ e ∈ st.exprs, e.LeavesIn S) (hs : s.CodeIn S) : s'.CodeIn S :=
  execAll_draft (P := fun d => ∀ l ∈ d.code.toList, l.In S) h
    (fun st hst _ _ _ hdoes hd => hdoes.codeIn (hsts st hst) hd) hs

theorem Accepts.codeIn {steps : List Step} (h : Accepts s s' steps)
    (hsteps : ∀ t ∈ steps, ∀ e ∈ t.statement.exprs, e.LeavesIn S) (hs : s.CodeIn S) : s'.CodeIn S := by
  rw [CodeIn, h.logs.code, List.forall_mem_append]
  refine ⟨hs, fun l hl => ?_⟩
  obtain ⟨t, ht, hl⟩ := List.mem_flatMap.mp hl
  exact (h.does t ht).lines_in (hsteps t ht) l hl

theorem codeIn_of_begin {s₀ : Assembler} (hbegin : s₀.begin = .ok s) : s.CodeIn S := by
  rw [CodeIn, (begin_spec hbegin).2.2]
  exact fun l hl => absurd hl (by simp)

theorem code_eq (hphase : s.phase = .finalized) :
    s.code = String.join (s.draft.code.toList.map Line.text) ++ "end\n" := by
  simp [code, hphase]

theorem readAll?_code (hphase : s.phase = .finalized) (h : s.CodeIn .plain) :
    Line.readAll? s.code = some (s.draft.code.toList.map Line.flattened) := by
  rw [code_eq hphase, Line.readAll?_text h]

end Assembler

/-- **The text of a run is the lines of its steps.** The unit that a run over canonical trees leaves can
be closed, and its code is read back as the lines of the steps in order. -/
theorem Run.readAll?_code {s₀ start s : Assembler} {steps : List Step} (hbegin : s₀.begin = .ok start)
    (h : Run start steps s) (hsteps : ∀ t ∈ steps, ∀ e ∈ t.statement.exprs, e.Canonical)
    (order : Traversal) :
    ∃ s', s.finish order = .ok s' ∧ Line.readAll? s'.code = some (steps.flatMap Step.printed) := by
  obtain ⟨hphase, -⟩ := h.state hbegin
  have hcode := h.code_eq hbegin
  have hin : s.CodeIn .plain := by
    intro l hl
    rw [hcode] at hl
    obtain ⟨t, ht, hline⟩ := List.mem_flatMap.mp hl
    obtain ⟨before, after, rfl⟩ := List.append_of_mem ht
    exact (h.split_does hbegin).lines_in (fun e he => (hsteps t ht e he).leaves) l hline
  have hfinish := Assembler.finish_eq hphase order
  obtain ⟨-, report, -, hclosed⟩ := Assembler.finish_ok hfinish
  have hread : Line.readAll? { s with phase := .finalized, report }.code =
    some (s.draft.code.toList.map Line.flattened) := Assembler.readAll?_code rfl hin
  refine ⟨_, hfinish, ?_⟩
  rw [hclosed, hread, hcode, List.map_flatMap]
  rfl

/-! ### Fields with stray lanes -/

/-- A field whose lanes bring a second operand into the text of the code. -/
def BufferField.stray (name : String) : BufferField :=
  ⟨0, 1, 0, .float1, some ("]," ++ name ++ ".x")⟩

namespace BufferField

theorem stray_place_text (name : String) : (stray name).place.text = "cb0[0]" :=
  show (Place.constant 0 0).text = "cb0[0]" by decide +kernel

theorem stray_text (name : String) :
    (stray name).text = "cb0[0].]," ++ name ++ "." ++ (⟨[.x]⟩ : Swizzle).text := by
  rw [text, stray_place_text, ← String.toList_inj]
  simp [stray, Swizzle.toList_text]
  rfl

theorem stray_placeOf (name : String) :
    (stray name).placeOf ("cb0[0].]," ++ name) = .named ("cb0[0].]," ++ name) := by
  refine if_neg fun h => ?_
  have hlists := congrArg String.toList (eq_of_beq h)
  simp [stray_place_text] at hlists

theorem stray_operand (name : String) :
    (stray name).operand = .ok ⟨.named ("cb0[0].]," ++ name), ⟨[.x]⟩, 1⟩ := by
  have hrange : (stray name).operand = Operand.ofText (stray name).placeOf (stray name).text .float1 :=
    rfl
  have hparse : Operand.parseText ("cb0[0].]," ++ name ++ "." ++ (⟨[.x]⟩ : Swizzle).text) .float1 =
    .ok ("cb0[0].]," ++ name, ⟨[.x]⟩) := Operand.parseText_of_lanes _ rfl rfl
  rw [hrange, stray_text, Operand.ofText, hparse, ← stray_placeOf]
  rfl

theorem stray_type (name : String) : (Expr.field (stray name)).type = .float1 := by
  rw [Expr.type, stray_operand]
  rfl

theorem stray_errors (name : String) (unit : Option UnitId) :
    (Expr.field (stray name)).errors unit = [] := by
  rw [Expr.errors, stray_operand]
  rfl

end BufferField

namespace Assembler

/-- The unit that has one variable and copied a stray field to it. -/
def strayed (name : String) : Assembler :=
  { phase := .building
    generation := 1
    draft := (({ next := 1 } : Draft).note (.buffer 0 1)).appended
      [⟨.mov, ⟨.temp 0, .ofSwizzle ⟨[.x]⟩⟩, [⟨.named ("cb0[0].]," ++ name), ⟨[.x]⟩, .plain⟩]⟩] }

theorem exec_stray (name : String) :
    ({ phase := .building, generation := 1, draft := { next := 1 } } : Assembler).exec
      (.assign (some (.var ⟨.float1, some ⟨⟨0, 1⟩, 0⟩⟩)) (.field (.stray name))) =
    .ok (.done, strayed name) := by
  have hoperand := BufferField.stray_operand name
  have hclean : LValue.assignErrors ⟨0, 1⟩ (some (.var ⟨.float1, some ⟨⟨0, 1⟩, 0⟩⟩))
      (.field (.stray name)) = [] := by
    rw [LValue.assignErrors, BufferField.stray_errors, BufferField.stray_type]
    rfl
  have hemit (target : Target) (d : Draft) : (Expr.field (.stray name)).emit target d =
      .ok (⟨.named ("cb0[0].]," ++ name), ⟨[.x]⟩, 1⟩, d.note (.buffer 0 1)) := by
    rw [Expr.emit, Emit.bind_of_ok (Draft.useBuffer_eq _ _ d), orFault_ok hoperand]
    rfl
  have hmove (d : Draft) : emitMove (Operand.ofType (.temp 0) .float1)
      ⟨.named ("cb0[0].]," ++ name), ⟨[.x]⟩, 1⟩ d = .ok ((), d.appended
      [⟨.mov, ⟨.temp 0, .ofSwizzle ⟨[.x]⟩⟩, [⟨.named ("cb0[0].]," ++ name), ⟨[.x]⟩, .plain⟩]⟩]) := by
    have hone : (Operand.ofType (.temp 0) .float1).components = 1 := by decide
    rw [emitMove, hone, decide_eq_false (lt_irrefl 1), Bool.and_false]
    exact Draft.writeAll_eq _ d
  have hstore : LValue.store .pixel (.field (.stray name)) (.var ⟨.float1, some ⟨⟨0, 1⟩, 0⟩⟩)
      ({ next := 1 } : Draft) = .ok ((), (strayed name).draft) := by
    rw [LValue.store, Emit.bind_of_ok (Variable.operand_ok rfl _)]
    change emitTo _ _ none _ _ = _
    rw [emitTo, Emit.bind_of_ok (hemit _ _)]
    exact hmove _
  have hassign : assign { phase := .building, generation := 1, draft := { next := 1 } }
      (some (.var ⟨.float1, some ⟨⟨0, 1⟩, 0⟩⟩)) (.field (.stray name)) = .ok (strayed name) := by
    rw [assign, guarded_eq rfl rfl]
    change (if (LValue.assignErrors ⟨0, 1⟩ _ _).isEmpty then _ else _) = _
    rw [hclean, List.isEmpty_nil, if_pos rfl, emitting_ok hstore]
    rfl
  rw [exec, hassign]
  rfl

theorem finish_strayed (name : String) :
    (strayed name).finish = .ok { strayed name with phase := .finalized } := by
  rw [finish_eq rfl]
  rfl

end Assembler

end ShaderIL
