import ShaderIL.Proofs.Assembler.Listing
import ShaderIL.Proofs.Expr.Definedness

/-!
# No use before definition

`Step.Shape` says what the lines of an accepted statement are: instructions that read no lane before
it is known, then at most one line of another sort. A statement thus never relies on a register that
an earlier statement left behind, other than a variable's, and whatever block it stands in, its own
registers are written on the way to where they are read (`Run.reads_defined`). This holds of the text of
the code as long as the lanes of fields are patterns; a field with other lanes can bring in an operand
that reads any register (`stray_lanes_read_undefined`).
-/

namespace ShaderIL

namespace Line

/-- The line reads a lane of a temporary. -/
def Reads : Line → LaneSet
  | instruction i => i.Reads
  | test _ c => c.place.readSet c.lanes
  | word _ | comment _ => fun _ _ => False

/-- The line writes a lane of a temporary. -/
def Writes : Line → LaneSet
  | instruction i => i.Writes
  | _ => fun _ _ => False

/-- The line is one where control can branch or join. -/
def isFlow : Line → Bool
  | word _ | test _ _ => true
  | _ => false

end Line

namespace Statement

/-- The trees of the statement have types throughout and no operand that is given by its text. -/
def Regular (st : Statement) : Prop := ∀ e ∈ st.exprs, e.WellTyped ∧ e.ExternalFree

theorem Canonical.regular {st : Statement} (h : st.Canonical) : st.Regular :=
  fun e he => ⟨(h e he).1, (h e he).2.external⟩

/-- The operand in a register that the statement assigns. -/
def assigned? : Statement → Option Operand
  | assign (some dst) _ => dst.operand?
  | _ => none

theorem exists_of_assigned {st : Statement} {D : Operand} (h : st.assigned? = some D) :
    ∃ dst e, st = assign (some dst) e ∧ dst.operand? = some D := by
  cases st with
  | assign dst e =>
    cases dst with
    | none => cases h
    | some dst => exact ⟨dst, e, rfl, h⟩
  | _ => cases h

end Statement

/-! ### The lines of a step -/

/-- The lines of a step: instructions, then at most one line of another sort. What they read is known
once the variables of the statement are. -/
structure Step.Shape (t : Step) (is : List Instruction) (tail : List Line) : Prop where
  lines : t.lines = is.map Line.instruction ++ tail
  definite : ∀ K : LaneSet, (∀ e ∈ t.statement.exprs, e.VarsIn K) →
    Definite K is ∧ ∀ line ∈ tail, ∀ n l, line.Reads n l → K.after is n l
  writes : ∀ i ∈ is, i.WritesFor t.statement.assigned? t.pre.registers t.post.registers
  tail_length : tail.length ≤ 1
  tail_plain : ∀ i, Line.instruction i ∉ tail

namespace Assembler.Does

variable {s s' : Assembler} {st : Statement} {o : Outcome}

theorem accepted (h : Does s st o s') (hregular : st.Regular) :
    ∀ e ∈ st.exprs, e.Accepted s.unit :=
  fun e he => ⟨(hregular e he).1, h.errors_of_mem e he⟩

theorem shape (h : Does s st o s') (hregular : st.Regular) :
    ∃ is tail, Step.Shape ⟨s, st, o, s'⟩ is tail := by
  have hacc := h.accepted hregular
  cases h with
  | declare ht =>
    exact ⟨[], [], Step.lines_eq (by simp), by simp [Definite], by simp, by simp, by simp⟩
  | @comment text =>
    exact ⟨[], [.comment text], Step.lines_eq (by simp), by simp [Definite, Line.Reads],
      by simp, by simp, by simp⟩
  | @word _ w flow hw =>
    exact ⟨[], [.word w], Step.lines_eq (by simp [writeLine]), by simp [Definite, Line.Reads],
      by simp, by simp, by simp⟩
  | @eval e c d herr hemit =>
    have he : e ∈ (Statement.eval e).exprs := by simp [Statement.exprs]
    obtain ⟨is, his, hdef⟩ := (hacc e he).emit_definite hemit
    refine ⟨is, [], Step.lines_eq (by simpa using his.code), fun K hK => ?_, ?_, by simp, by simp⟩
    · exact ⟨(hdef (hregular e he).2 K (hK e he)).1, by simp⟩
    · exact his.writesFor (Nat.le_refl _)
  | @test _ k cond c d flow ht herr htype hemit =>
    have he : cond ∈ st.exprs := by simp [Statement.exprs_of_test ht]
    obtain ⟨is, his, hdef⟩ := (hacc cond he).emit_definite hemit
    refine ⟨is, [.test k c.source], Step.lines_eq (by simp [writeLine, his.code]), fun K hK => ?_,
      ?_, by simp, by simp⟩
    · obtain ⟨hdef, hready⟩ := hdef (hregular cond he).2 K (hK cond he)
      refine ⟨hdef, fun line hline n l hr => ?_⟩
      rw [List.mem_singleton.mp hline] at hr
      exact hready n l hr
    · exact his.writesFor (Nat.le_refl _)
  | @assign dst e d herr hstore =>
    have he : e ∈ (Statement.assign (some dst) e).exprs := by simp [Statement.exprs]
    have hdst : dst.toExpr ∈ (Statement.assign (some dst) e).exprs := by simp [Statement.exprs]
    obtain ⟨-, -, htypes⟩ := LValue.assignErrors_eq_nil herr
    have hstores := LValue.stores (hacc e he) (hacc _ hdst) htypes hstore
    obtain ⟨is, his, hwrites, hdef⟩ := hstores.definite (hacc e he) (hacc _ hdst) htypes
      (hregular e he).2 (hregular _ hdst).2
    refine ⟨is, [], Step.lines_eq (by simpa using his.code), fun K hK => ?_, hwrites, by simp,
      by simp⟩
    exact ⟨hdef K (hK e he) (hK _ hdst), by simp⟩

end Assembler.Does

/-! ### Runs -/

/-- A lane that an instruction of definite code reads is known or was written before it. -/
theorem Definite.read {K : LaneSet} {is js : List Instruction} {i : Instruction} {n : Nat} {l : Lane}
    (h : Definite K (is ++ i :: js)) (hr : i.Reads n l) : K.after is n l :=
  (definite_append.mp h).2.1 n l hr

/-- An earlier line that writes a lane, with no branch on the way. -/
def WrittenBy (above : List Line) (n : Nat) (l : Lane) : Prop :=
  ∃ earlier writer between, above = earlier ++ writer :: between ∧ writer.Writes n l ∧
    ∀ line ∈ between, line.isFlow = false

theorem writtenBy_of_after {K : LaneSet} {is : List Instruction} {n : Nat} {l : Lane}
    (h : K.after is n l) : K n l ∨ WrittenBy (is.map Line.instruction) n l := by
  refine h.imp_right fun ⟨i, hi, hw⟩ => ?_
  obtain ⟨earlier, between, rfl⟩ := List.append_of_mem hi
  refine ⟨earlier.map .instruction, .instruction i, between.map .instruction, by simp, hw, ?_⟩
  intro line hline
  obtain ⟨j, -, rfl⟩ := List.mem_map.mp hline
  rfl

/-- Every lane that a line of a step reads is known or was written by the step. -/
theorem Step.Shape.read {t : Step} {is : List Instruction} {tail : List Line} (h : t.Shape is tail)
    {K : LaneSet} (hK : ∀ e ∈ t.statement.exprs, e.VarsIn K) {above below : List Line} {line : Line}
    (hlines : t.lines = above ++ line :: below) {n : Nat} {l : Lane} (hr : line.Reads n l) :
    K n l ∨ WrittenBy above n l := by
  obtain ⟨hdefinite, htail⟩ := h.definite K hK
  rw [h.lines] at hlines
  rcases List.append_eq_append_iff.mp hlines with ⟨rest, rfl, hrest⟩ | ⟨rest, hinstr, hrest⟩
  · -- the line stands in the tail, which has no room for others
    have hlength := h.tail_length
    rw [hrest, List.length_append, List.length_cons] at hlength
    obtain rfl : rest = [] := List.length_eq_zero_iff.mp (by omega)
    rw [List.append_nil]
    exact writtenBy_of_after (htail line (by rw [hrest]; exact List.mem_cons_self) n l hr)
  · cases rest with
    | nil =>
      rw [List.append_nil] at hinstr
      rw [List.nil_append] at hrest
      rw [← hinstr]
      exact writtenBy_of_after (htail line (by rw [← hrest]; exact List.mem_cons_self) n l hr)
    | cons line' rest =>
      obtain ⟨rfl, -⟩ := List.cons_eq_cons.mp hrest
      obtain ⟨is₁, is₂, rfl, rfl, hmap⟩ := List.map_eq_append_iff.mp hinstr
      obtain ⟨i, is₃, rfl, rfl, -⟩ := List.map_eq_cons_iff.mp hmap
      exact writtenBy_of_after (hdefinite.read hr)

theorem Run.reads_known {s₀ start s : Assembler} {before after : List Step} {t : Step}
    (hbegin : s₀.begin = .ok start) (hrun : Run start (before ++ t :: after) s)
    (ht : t.statement.Regular) {above below : List Line} {line : Line}
    (hlines : t.lines = above ++ line :: below) {n : Nat} {l : Lane} (hr : line.Reads n l) :
    (∃ v ∈ declaredBy before, v.Owns n l) ∨ WrittenBy above n l := by
  have hdoes := hrun.split_does hbegin
  obtain ⟨-, hvars, -⟩ := hrun.split
  obtain ⟨is, tail, hshape⟩ := hdoes.shape ht
  refine hshape.read (K := fun n l => ∃ v ∈ declaredBy before, v.Owns n l) ?_ hlines hr
  intro e he v hv n l ho
  obtain ⟨-, r, hr⟩ := (hdoes.accepted ht e he).variable_home v hv
  refine ⟨v, hvars v (List.mem_flatMap.mpr ⟨e, he, hv⟩) ?_, ho⟩
  rw [hr]
  rfl

/-! ### The text of a run -/

namespace Line

theorem reads_flattened (l : Line) : l.flattened.Reads = l.Reads := by
  cases l <;> rfl

theorem writes_flattened (l : Line) : l.flattened.Writes = l.Writes := by
  cases l <;> rfl

theorem isFlow_flattened (l : Line) : l.flattened.isFlow = l.isFlow := by
  cases l <;> rfl

end Line

theorem WrittenBy.flattened {above : List Line} {n : Nat} {l : Lane} (h : WrittenBy above n l) :
    WrittenBy (above.map Line.flattened) n l := by
  obtain ⟨earlier, writer, between, rfl, hwrites, hbetween⟩ := h
  refine ⟨earlier.map .flattened, writer.flattened, between.map .flattened, by simp, ?_, ?_⟩
  · rw [Line.writes_flattened]
    exact hwrites
  · intro line hline
    obtain ⟨m, hm, rfl⟩ := List.mem_map.mp hline
    rw [Line.isFlow_flattened]
    exact hbetween m hm

/-- **No use before definition.** The code of a closed unit is read from its text as the lines of its
statements one after the other. Every lane of a temporary that a line reads belongs to a variable that
was declared by an earlier statement, or was written by an earlier line of the same statement, without a
branch between the two lines. -/
theorem Run.reads_defined {s₀ start s : Assembler} {steps : List Step}
    (hbegin : s₀.begin = .ok start) (hrun : Run start steps s)
    (hcanonical : ∀ t ∈ steps, t.statement.Canonical) :
    (∀ order, ∃ s', s.finish order = .ok s' ∧
      Line.readAll? s'.code = some (steps.flatMap Step.printed)) ∧
    ∀ before t after, steps = before ++ t :: after →
      ∀ above line below, t.printed = above ++ line :: below → ∀ n l, line.Reads n l →
        (∃ v ∈ declaredBy before, v.Owns n l) ∨ WrittenBy above n l := by
  refine ⟨hrun.readAll?_code hbegin fun t ht e he => (hcanonical t ht e he).2, ?_⟩
  rintro before t after rfl above line below hlines n l hr
  obtain ⟨above', rest, hsplit, rfl, hrest⟩ := List.map_eq_append_iff.mp hlines
  obtain ⟨line', below', rfl, rfl, -⟩ := List.map_eq_cons_iff.mp hrest
  rw [Line.reads_flattened] at hr
  exact (hrun.reads_known hbegin (hcanonical t (by simp)).regular hsplit hr).imp_right
    WrittenBy.flattened

/-- The premises can be met inside a loop: the condition for leaving it is computed in two fresh
registers, and the test reads the second one. -/
theorem break_condition_defined :
    let v : Variable := ⟨.float1, some ⟨⟨0, 1⟩, 0⟩⟩
    let cond : Expr := .binary .lt (.var v) (.binary .add (.var v) (.var v))
    let s : Assembler :=
      { phase := .building, generation := 1, flow := [.loop]
        draft := { next := 1, code := #[.word .whileLoop], instructions := 1 } }
    ∃ s' f above c, s.exec (.breakIf cond) = .ok (.done, s') ∧ s'.finish = .ok f ∧
      Line.readAll? f.code = some (.word .whileLoop :: above ++ [.test .breakTrue c]) ∧
      (Line.test .breakTrue c).Reads 2 .x ∧ WrittenBy above 2 .x := by
  intro v cond s
  let r : Nat → Operand := fun i => .ofType (.temp i) .float1
  let sum : Line := .instruction ⟨.add, (r 1).destination, [(r 0).source, (r 0).source]⟩
  let less : Line := .instruction ⟨.lt, (r 2).destination, [(r 0).source, (r 1).source]⟩
  let above : List Line := [sum, less]
  let test : Line := .test .breakTrue (r 2).source
  let s' : Assembler :=
    { s with draft :=
        { next := 3, code := ⟨.word .whileLoop :: above ++ [test]⟩
          instructions := 1 + Line.breaks [sum] + Line.breaks [less] + Line.breaks [test] } }
  let start : Assembler := { phase := .building, generation := 1 }
  let s₁ : Assembler := { start with draft := { next := 1 } }
  have hbegin : ({} : Assembler).begin = .ok start := rfl
  have hexec : s.exec (.breakIf cond) = .ok (.done, s') := by rfl
  have hvars : ∀ u ∈ (Statement.breakIf cond).vars, u = v := by
    simp [Statement.vars, Statement.exprs, Expr.vars, Expr.subterms, cond]
  have hrun : Run start ([⟨start, .declare .float1, .declared v, s₁⟩, ⟨s₁, .whileLoop, .done, s⟩] ++
      [⟨s, .breakIf cond, .done, s'⟩]) s' := by
    refine .snoc (.snoc (.snoc .nil ?_ rfl rfl) ?_ rfl rfl) (fun u hu _ => ?_) hexec rfl
    · simp [Statement.vars, Statement.exprs]
    · simp [Statement.vars, Statement.exprs]
    · rw [hvars u hu]
      simp [declaredBy, Step.declared?]
  have hcond : cond.WellTyped ∧ cond.Canonical := by
    refine ⟨fun x hx => ?_, fun t text => by simp [Expr.subterms, cond],
      fun f => by simp [Expr.subterms, cond]⟩
    simp only [Expr.subterms, List.mem_cons, List.not_mem_nil, or_false, List.cons_append,
      List.nil_append, cond] at hx
    rcases hx with rfl | rfl | rfl | rfl | rfl <;> decide +kernel
  have hreads : test.Reads 2 .x := ⟨rfl, by decide⟩
  obtain ⟨hread, hdefined⟩ := Run.reads_defined hbegin hrun (by
    simp [Statement.Canonical, Statement.exprs, hcond])
  obtain ⟨f, hfinish, hread⟩ := hread .ascending
  refine ⟨s', f, above, _, hexec, hfinish, hread, hreads, ?_⟩
  refine (hdefined _ _ [] rfl above test [] rfl 2 .x hreads).resolve_left ?_
  -- the only variable has another register
  rintro ⟨u, hu, h, hh, hr, -⟩
  simp only [declaredBy, Step.declared?, List.filterMap_cons, List.filterMap_nil,
    List.mem_singleton] at hu
  subst hu
  cases hh
  cases hr

theorem stray_regular (name : String) : (Statement.assign
    (some (.var ⟨.float1, some ⟨⟨0, 1⟩, 0⟩⟩)) (.field (.stray name))).Regular := by
  intro e he
  simp only [Statement.exprs, LValue.toExpr, List.mem_cons, List.not_mem_nil, or_false] at he
  rcases he with rfl | rfl
  · refine ⟨fun x hx => ?_, by simp [Expr.ExternalFree, Expr.subterms]⟩
    rw [List.mem_singleton.mp hx]
    rfl
  · refine ⟨fun x hx => ?_, by simp [Expr.ExternalFree, Expr.subterms]⟩
    rw [List.mem_singleton.mp hx, BufferField.stray_type]
    rfl

/-- A field whose lanes are no pattern is accepted, and its text brings in a read of a register that was
never taken: the code of the unit is one move with a second source. -/
theorem stray_lanes_read_undefined :
    let v : Variable := ⟨.float1, some ⟨⟨0, 1⟩, 0⟩⟩
    let start : Assembler := { phase := .building, generation := 1 }
    let field : BufferField := ⟨0, 1, 0, .float1, some "],r99.x"⟩
    ∃ s s' f, ({} : Assembler).begin = .ok start ∧
      Run start [⟨start, .declare .float1, .declared v, s⟩,
        ⟨s, .assign (some (.var v)) (.field field), .done, s'⟩] s' ∧
      (Statement.assign (some (.var v)) (.field field)).Regular ∧ s'.finish = .ok f ∧
      f.code = "mov " ++ ",".intercalate ["r0.x___", "cb0[0].]", "r99.x"] ++ "\nend\n" ∧
      SourceOperand.read? "r99.x".toList = some ⟨.temp 99, ⟨[.x]⟩, .plain⟩ ∧ ¬ v.Owns 99 .x := by
  intro v start field
  let s : Assembler := { start with draft := { next := 1 } }
  have hdeclare : Run start [⟨start, .declare .float1, .declared v, s⟩] s :=
    .snoc .nil (by simp [Statement.vars, Statement.exprs]) rfl rfl
  have hvars : ∀ u ∈ (Statement.assign (some (.var v)) (.field field)).vars, u = v := by
    simp [Statement.vars, Statement.exprs, Expr.vars, Expr.subterms, LValue.toExpr]
  have hrun := hdeclare.snoc (fun u hu _ => by
    rw [hvars u hu]
    simp [declaredBy, Step.declared?]) (Assembler.exec_stray "r99") rfl
  refine ⟨s, _, _, rfl, hrun, stray_regular "r99", Assembler.finish_strayed "r99", by decide +kernel,
    by decide +kernel, ?_⟩
  rintro ⟨h, hh, hr, -⟩
  cases hh
  cases hr

end ShaderIL
