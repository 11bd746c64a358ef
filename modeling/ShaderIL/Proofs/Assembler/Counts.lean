import ShaderIL.Compile
import ShaderIL.Proofs.Assembler.Flow
import ShaderIL.Proofs.Assembler.Header

/-!
# Counts and text

A unit counts its instructions as it writes them. Every statement keeps the counter equal to the line
breaks of the code without its comments, whatever texts the operands have (`Does.counted`), and so does
every sequence of statements (`execAll_counted`). A comment is one line, and so is each declaration of
the header. Together they give the line breaks of a program, and a compiled program carries the counts
of its unit (`program_counts_agree`).
-/

namespace ShaderIL

open Text

/-- The text of a comment line. -/
def Line.comment? : Line → Option String
  | comment text => some text
  | _ => none

/-- The text of a comment statement. -/
def Statement.comment? : Statement → Option String
  | comment text => some text
  | _ => none

/-- The comments in the code, line by line. -/
def Draft.comments (d : Draft) : List String := d.code.toList.filterMap Line.comment?

/-! ### Comments of a unit -/

theorem Draft.comments_of_code {d d' : Draft} (is : List Instruction) (tail : List Line)
    (h : d'.code.toList = d.code.toList ++ is.map .instruction ++ tail) :
    d'.comments = d.comments ++ tail.filterMap Line.comment? := by
  have hnone : (is.map Line.instruction).filterMap Line.comment? = [] := by
    rw [List.filterMap_map]
    exact List.filterMap_eq_nil_iff.mpr fun _ _ => rfl
  rw [comments, h, List.filterMap_append, List.filterMap_append, hnone, List.append_nil]
  rfl

theorem Statement.comment?_of_word {st : Statement} {w : FlowWord} (h : st.word? = some w) :
    st.comment? = none := by
  cases st with
  | comment => cases h
  | _ => rfl

theorem Statement.comment?_of_test {st : Statement} {t : FlowTest} {cond : Expr}
    (h : st.test? = some (t, cond)) : st.comment? = none := by
  cases st with
  | comment => cases h
  | _ => rfl

namespace Assembler

variable {s s' : Assembler} {st : Statement} {o : Outcome}

/-- An accepted statement writes its comment, if it is one. -/
theorem Does.comments (h : Does s st o s') :
    s'.draft.comments = s.draft.comments ++ st.comment?.toList := by
  cases h with
  | declare => exact (List.append_nil _).symm
  | eval herr hemit =>
    obtain ⟨is, his⟩ := Emit.Growing.expr _ _ _ _ _ hemit
    exact Draft.comments_of_code is [] (by simp [his.code])
  | assign herr hstore =>
    obtain ⟨is, his⟩ := Emit.Growing.store _ _ _ _ _ _ hstore
    exact Draft.comments_of_code is [] (by simp [his.code])
  | @comment text => exact Draft.comments_of_code [] [.comment text] (by simp)
  | @word st w flow hw =>
    rw [Statement.comment?_of_word hw]
    exact Draft.comments_of_code [] [.word w] (by simp [writeLine])
  | @test st t cond c d flow ht herr htype hemit =>
    obtain ⟨is, his⟩ := Emit.Growing.expr _ _ _ _ _ hemit
    rw [Statement.comment?_of_test ht]
    exact Draft.comments_of_code is [.test t c.source] (by simp [writeLine, his.code])

/-- If there is no error after statements in an open unit, all of them were accepted. -/
theorem execAll_comments {sts : List Statement} {os : List Outcome} (hphase : s.phase = .building)
    (h : s.execAll sts = .ok (os, s')) (hs' : s'.report = none) :
    s'.draft.comments = s.draft.comments ++ sts.filterMap Statement.comment? := by
  induction sts generalizing s os with
  | nil =>
    cases h
    exact (List.append_nil _).symm
  | cons st sts ih =>
    obtain ⟨o, s₁, os₁, hexec, hrest, rfl⟩ := execAll_cons_ok.mp h
    have hs₁ : s₁.report = none := by
      by_contra hfailed
      obtain ⟨os₂, hskip⟩ := execAll_of_report hfailed sts
      cases hskip.symm.trans hrest
      exact hfailed hs'
    have hs : s.report = none := by
      by_contra hfailed
      obtain ⟨o', r, hskip⟩ := exec_of_not_open (fun hopen => hfailed hopen.2) st
      rw [fail_of_report hfailed] at hskip
      cases hskip.symm.trans hexec
      exact hfailed hs₁
    have hdoes := exec_does hphase hs hexec hs₁
    rw [ih (hdoes.phase_eq.trans hphase) hrest, hdoes.comments, List.append_assoc]
    cases hcomment : st.comment? <;> simp [hcomment]

end Assembler

/-! ### The instruction counter -/

/-- The lines that are no comments. -/
def Line.counted (ls : List Line) : List Line := ls.filter fun l => l.comment?.isNone

theorem Line.counted_append (ls ms : List Line) : counted (ls ++ ms) = counted ls ++ counted ms :=
  List.filter_append _ _

theorem Line.counted_instructions (is : List Instruction) :
    counted (is.map instruction) = is.map instruction := by
  refine List.filter_eq_self.mpr fun l hl => ?_
  obtain ⟨i, -, rfl⟩ := List.mem_map.mp hl
  rfl

namespace Draft

variable {d d' : Draft}

/-- The counter is the number of line breaks in the code without its comments. -/
def Counted (d : Draft) : Prop := d.instructions = Line.breaks (Line.counted d.code.toList)

theorem counted_empty : Counted {} := rfl

theorem Counted.written (h : d.Counted) {ls : List Line} (hls : Line.counted ls = ls) :
    (d.written ls).Counted := by
  rw [Counted, written_instructions, written_code_toList, Line.counted_append, Line.breaks_append, hls,
    h]

theorem Counted.remarked (h : d.Counted) (text : String) : (d.remarked text).Counted := by
  rw [Counted, remarked_code_toList, Line.counted_append]
  exact h.trans (congrArg Line.breaks (List.append_nil _).symm)

theorem Counted.grows {is : List Instruction} (h : d.Counted) (hgrows : d.Grows d' is) :
    d'.Counted := by
  rw [Counted, hgrows.counted, hgrows.code, Line.counted_append, Line.breaks_append,
    Line.counted_instructions, h]

end Draft

namespace Assembler

variable {s s' : Assembler} {st : Statement} {o : Outcome}

/-- **An accepted statement keeps the counter right.** -/
theorem Does.counted (h : Does s st o s') (hs : s.draft.Counted) : s'.draft.Counted := by
  cases h with
  | declare => exact hs
  | eval herr hemit =>
    obtain ⟨is, his⟩ := Emit.Growing.expr _ _ _ _ _ hemit
    exact hs.grows his
  | assign herr hstore =>
    obtain ⟨is, his⟩ := Emit.Growing.store _ _ _ _ _ _ hstore
    exact hs.grows his
  | comment => exact hs.remarked _
  | word hw => exact hs.written rfl
  | test ht herr htype hemit =>
    obtain ⟨is, his⟩ := Emit.Growing.expr _ _ _ _ _ hemit
    exact (hs.grows his).written rfl

/-- **Statements in order keep the counter right**, accepted or not. -/
theorem execAll_counted {sts : List Statement} {os : List Outcome}
    (h : s.execAll sts = .ok (os, s')) (hs : s.draft.Counted) : s'.draft.Counted :=
  execAll_draft h (fun _ _ _ _ _ hdoes => hdoes.counted) hs

end Assembler

/-! ### Line breaks of the code -/

/-- The line of a comment. -/
def commentLine (t : String) : String := "; " ++ Line.flatten t ++ "\n"

theorem commentLine_singleLine (t : String) : SingleLine (commentLine t) :=
  ⟨"; " ++ Line.flatten t, flat_append.mpr ⟨by simp [Flat], Text.flat_flatten t⟩, rfl⟩

theorem Line.ended_text (l : Line) : Ended l.text := by
  cases l <;> exact ⟨_, rfl⟩

/-- The line breaks of code are those of its other lines and one for each comment. -/
theorem countBreaks_code (ls : List Line) : Line.countBreaks (String.join (ls.map Line.text)) =
    Line.breaks (Line.counted ls) + (ls.filterMap Line.comment?).length := by
  induction ls with
  | nil => rfl
  | cons l ls ih =>
    rw [List.map_cons, String.join_cons, countBreaks_append, ih]
    cases l with
    | comment t =>
      have hone : Line.countBreaks (Line.comment t).text = 1 := (commentLine_singleLine t).countBreaks
      have hnone : Line.counted (Line.comment t :: ls) = Line.counted ls := rfl
      have hcomments : (Line.comment t :: ls).filterMap Line.comment? =
          t :: ls.filterMap Line.comment? := rfl
      rw [hone, hnone, hcomments, List.length_cons]
      omega
    | instruction | word | test =>
      rw [List.filterMap_cons_none rfl]
      exact (Nat.add_assoc _ _ _).symm

theorem comments_sublist_lines (ls : List Line) :
    ((ls.filterMap Line.comment?).map commentLine).Sublist ((ls.map Line.text).flatMap lines) := by
  induction ls with
  | nil => exact .slnil
  | cons l ls ih =>
    rw [List.map_cons, List.flatMap_cons]
    cases l with
    | comment t =>
      have hline : lines (Line.comment t).text = [commentLine t] := (commentLine_singleLine t).lines_eq
      rw [hline]
      exact ih.cons_cons _
    | _ => exact ih.trans (List.sublist_append_right _ _)

/-! ### Lines of the header -/

namespace Assembler

variable {s : Assembler}

theorem length_headerLines (s : Assembler) : s.headerLines.length =
    1 + (if s.target = .compute then 1 else 0) + s.draft.buffers.entries.length +
      s.draft.inputs.entries.length + (if s.draft.usesPosition then 1 else 0) + s.literals := by
  rw [headerLines_eq]
  simp only [List.length_append, List.length_map, List.length_singleton, Draft.length_literalLines,
    beq_iff_eq, literals]
  split_ifs <;> rfl

theorem countP_constant (s : Assembler) :
    s.bindings.countP (fun b => b.kind = .constant) = s.draft.buffers.entries.length := by
  simp only [bindings, Draft.bindings, List.countP_append, List.countP_map]
  split_ifs <;> simp [Function.comp_def]

theorem countP_input (s : Assembler) :
    s.bindings.countP (fun b => b.kind = .input) = s.draft.inputs.entries.length := by
  simp only [bindings, Draft.bindings, List.countP_append, List.countP_map]
  split_ifs <;> simp [Function.comp_def]

/-- The window position is declared exactly if it is used. -/
theorem positionLine_mem_headerLines (s : Assembler) :
    Draft.positionLine ∈ s.headerLines ↔ s.draft.usesPosition = true := by
  constructor
  · intro h
    have htag : tag Draft.positionLine = "dcl_inp".toList := by simp [tag, Draft.positionLine]
    refine headerLines_cases (P := fun l => tag l = "dcl_inp".toList → s.draft.usesPosition = true)
      ?_ ?_ ?_ ?_ (fun huses _ => huses) ?_ _ h htag
    · exact fun hl => absurd hl (s.tag_versionLine_ne _)
    · rw [tag_threadLine]
      exact fun hl => absurd hl (by decide)
    · intro slot size
      rw [Draft.tag_bufferLine]
      exact fun hl => absurd hl (by decide)
    · intro slot t
      rw [Draft.tag_inputLine]
      exact fun hl => absurd hl (by decide)
    · intro i bits
      rw [Draft.tag_literalLine]
      exact fun hl => absurd hl (by decide)
  · intro h
    simp [headerLines_eq, h]

end Assembler

/-! ### Reported counts -/

theorem Host.eq_of_narrow_word {n k : Int} (h : (Host.word n).narrow .uint32 = some k) : k = n := by
  simp only [word, narrow, narrowInteger] at h
  split_ifs at h with hmark hsign hformat
  cases h
  -- what remains of the number in 32 bits is left as it is in 64
  have hsmall : (⟨true, 64⟩ : IntegerFormat).wrap (IntegerFormat.uint32.wrap n) =
      IntegerFormat.uint32.wrap n := by
    change (n % 4294967296).bmod 18446744073709551616 = n % 4294967296
    exact Int.bmod_eq_of_le (by omega) (by omega)
  rw [hsmall] at hformat
  simpa using hformat

theorem eq_of_reportedCount {n m : Nat} (h : reportedCount n = .ok m) : m = n := by
  unfold reportedCount at h
  split at h
  · rename_i k hk
    cases h
    rw [Host.eq_of_narrow_word hk, Int.toNat_natCast]
  · cases h

/-! ### Programs -/

namespace Assembler

/-- How the text of a program goes with the counts of its unit and with the comments made in it. -/
structure TextCounts (f : Assembler) (comments : List String) (text : String) : Prop where
  parts : text = f.header ++ f.code
  breaks : Line.countBreaks text =
    1 + (if f.target = .compute then 1 else 0) + f.bindings.countP (fun b => b.kind = .constant) +
      f.bindings.countP (fun b => b.kind = .input) +
      (if "dcl_input_position_interp(linear_noperspective) vWinCoord0.xy__\n" ∈ lines f.header then 1
        else 0) + f.literals + f.instructions + comments.length + 1
  ends : ∃ front, text = front ++ "end\n"
  comments : (comments.map commentLine).Sublist (lines text)

variable {s₀ start s f : Assembler} {sts : List Statement} {os : List Outcome}

/-- The lines of a program are those of the header, those of the code, and a last one. -/
theorem lines_program (h : s.phase = .finalized) : lines (s.header ++ s.code) =
    s.headerLines ++ ((s.draft.code.toList.map Line.text).flatMap lines ++ ["end\n"]) := by
  have hlast : SingleLine "end\n" := ⟨"end", by simp [Flat], rfl⟩
  have htext : s.header ++ s.code =
      String.join (s.headerLines ++ (s.draft.code.toList.map Line.text ++ ["end\n"])) := by
    rw [header_eq h, code_eq h, String.join_append, String.join_append]
    rfl
  have hended : ∀ l ∈ s.headerLines ++ (s.draft.code.toList.map Line.text ++ ["end\n"]), Ended l := by
    intro l hl
    simp only [List.mem_append, List.mem_map, List.mem_singleton] at hl
    rcases hl with hl | ⟨m, -, rfl⟩ | rfl
    · exact (s.headerLines_singleLine l hl).ended
    · exact m.ended_text
    · exact hlast.ended
  rw [htext, lines_join hended, List.flatMap_append, List.flatMap_append,
    flatMap_lines s.headerLines_singleLine, List.flatMap_singleton, hlast.lines_eq]

theorem TextCounts.of_program {text : String} (hcounted : f.draft.Counted)
    (h : f.program = .ok text) : TextCounts f f.draft.comments text := by
  obtain ⟨hphase, -, rfl⟩ := program_ok h
  refine ⟨rfl, ?_, ?_, ?_⟩
  · have hheader : Line.countBreaks f.header = f.headerLines.length := by
      rw [header_eq hphase, countBreaks_join f.headerLines_singleLine]
    have hend : Line.countBreaks "end\n" = 1 := rfl
    have hposition : "dcl_input_position_interp(linear_noperspective) vWinCoord0.xy__\n" ∈
        lines f.header ↔ f.draft.usesPosition = true := by
      rw [lines_header hphase]
      exact positionLine_mem_headerLines f
    rw [countBreaks_append, hheader, length_headerLines, code_eq hphase, countBreaks_append,
      countBreaks_code, hend, countP_constant, countP_input, ← hcounted]
    simp only [hposition, instructions, Draft.comments]
    omega
  · exact ⟨f.header ++ String.join (f.draft.code.toList.map Line.text), by
      rw [code_eq hphase, String.append_assoc]⟩
  · rw [lines_program hphase]
    exact ((comments_sublist_lines _).trans (List.sublist_append_left _ _)).trans
      (List.sublist_append_right _ _)

theorem comments_eq (hbegin : s₀.begin = .ok start) (hsts : start.execAll sts = .ok (os, s))
    (hreport : s.report = none) : s.draft.comments = sts.filterMap Statement.comment? := by
  obtain ⟨hphase, -, hdraft⟩ := begin_spec hbegin
  rw [execAll_comments hphase hsts hreport, hdraft]
  rfl

theorem compiled_ok {c : Compiled} (h : f.compiled = .ok c) : f.program = .ok c.text ∧
    c.target = f.target ∧ c.bindings = f.bindings ∧ c.registers = f.registers ∧
    c.literals = f.literals ∧ c.instructions = f.instructions := by
  unfold compiled at h
  split at h
  · cases h
  · rename_i text hprogram
    obtain ⟨registers, hregisters, h⟩ := except_bind_eq_ok.mp h
    obtain ⟨literals, hliterals, h⟩ := except_bind_eq_ok.mp h
    obtain ⟨instructions, hinstructions, h⟩ := except_bind_eq_ok.mp h
    cases h
    exact ⟨hprogram, rfl, rfl, eq_of_reportedCount hregisters, eq_of_reportedCount hliterals,
      eq_of_reportedCount hinstructions⟩

variable {order : Traversal}

theorem conclude_ok {own : Option KernelError} {c : Compiled} (h : s.conclude own order = .ok c) :
    ∃ f, s.finish order = .ok f ∧ f.compiled = .ok c := by
  unfold conclude at h
  split at h
  · cases h
  · rename_i f hfinish
    refine ⟨f, hfinish, ?_⟩
    split at h
    · cases h
    · cases h
    · exact h

theorem compile_ok {o : Options} {body : Body} {c : Compiled}
    (h : compile o (some body) order = .ok (.ok c)) :
    ∃ start own s, o.assembler.begin = .ok start ∧ body start = .ok (own, s) ∧
      s.conclude own order = .ok c := by
  unfold compile at h
  split at h
  · cases h
  · rename_i body' hbody
    cases hbody
    split at h
    · cases h
    · rename_i start hbegin
      obtain ⟨⟨own, s⟩, hrun, h⟩ := except_bind_eq_ok.mp h
      exact ⟨start, own, s, hbegin, hrun, Except.ok.inj h⟩

/-- **Counts agree with the text.** Take any statements in a new unit, with any comments and operands.
If the closed unit has a program, its text is the header and the code; its line breaks are those of the
declarations, of the instructions and of the comments, and one at the end; it ends in `end`; and each
comment has a line of its own. If a kernel that makes the statements is compiled, what it gives is the
program of the closed unit, with the target, the bindings and the counts of the unit. -/
theorem program_counts_agree (hbegin : s₀.begin = .ok start) (hsts : start.execAll sts = .ok (os, s))
    (hfinish : s.finish order = .ok f) :
    (∀ text, f.program = .ok text → TextCounts f (sts.filterMap Statement.comment?) text) ∧
    ∀ o body own c, o.assembler = s₀ → body start = .ok (own, s) →
      compile o (some body) order = .ok (.ok c) → f.program = .ok c.text ∧ c.target = f.target ∧
        c.bindings = f.bindings ∧ c.registers = f.registers ∧ c.literals = f.literals ∧
        c.instructions = f.instructions := by
  constructor
  · intro text hprogram
    obtain ⟨-, report, hreport, rfl⟩ := finish_ok hfinish
    have hcomments := comments_eq hbegin hsts (hreport (program_ok hprogram).2.1)
    have hcounted : s.draft.Counted := by
      refine execAll_counted hsts ?_
      rw [(begin_spec hbegin).2.2]
      exact Draft.counted_empty
    have hcounts := TextCounts.of_program (by exact hcounted) hprogram
    exact hcomments ▸ hcounts
  · intro o body own c hoptions hbody hcompile
    obtain ⟨start', own', s', hbegin', hbody', hconclude⟩ := compile_ok hcompile
    rw [hoptions] at hbegin'
    cases hbegin.symm.trans hbegin'
    cases hbody.symm.trans hbody'
    obtain ⟨f', hfinish', hcompiled⟩ := conclude_ok hconclude
    cases hfinish.symm.trans hfinish'
    exact compiled_ok hcompiled

/-- The premises can be met: in a compute program a comment and a named operand both have a line break
in their texts. The comment is one line, the operand makes its instruction two. -/
theorem counts_of_broken_operand :
    let o : Options := { target := .compute }
    let start : Assembler := { target := .compute, phase := .building, generation := 1 }
    let sts : List Statement := [.comment "x\ny",
      .assign (some (.element .float4 ⟨none, 0⟩)) (.external .float4 "a\nb"),
      .eval (.field ⟨2, 4, 1, .float4, none⟩)]
    let body : Body := fun s => do
      let (_, s) ← s.execAll sts
      return (none, s)
    ∃ os s f c, o.assembler.begin = .ok start ∧ start.execAll sts = .ok (os, s) ∧
      s.finish = .ok f ∧ compile o (some body) = .ok (.ok c) ∧ c.instructions = 2 ∧
      Line.countBreaks c.text = 7 ∧ ["; x y\n"].Sublist (lines c.text) := by
  intro o start sts body
  have hdone : ((compile o (some body)).toOption.bind Except.toOption).isSome = true := by
    decide +kernel +revert
  obtain ⟨c, hcompile⟩ : ∃ c, compile o (some body) = .ok (.ok c) := by
    cases hcompile : compile o (some body) with
    | error fault => simp [hcompile, Except.toOption] at hdone
    | ok r =>
      cases r with
      | error e => simp [hcompile, Except.toOption] at hdone
      | ok c => exact ⟨c, rfl⟩
  obtain ⟨os, s, f, hsts, hfinish, hinstructions, hliterals, hunit⟩ : ∃ os s f,
      start.execAll sts = .ok (os, s) ∧ s.finish = .ok f ∧ f.instructions = 2 ∧ f.literals = 0 ∧
      f.target = .compute ∧ f.bindings.countP (fun b => b.kind = .constant) = 1 ∧
      f.bindings.countP (fun b => b.kind = .input) = 0 ∧
      "dcl_input_position_interp(linear_noperspective) vWinCoord0.xy__\n" ∉ lines f.header := by
    refine ⟨_, _, _, rfl, rfl, ?_⟩
    decide +kernel
  obtain ⟨htarget, hconstants, hinputs, hposition⟩ := hunit
  have hbody : body start = .ok (none, s) := by
    change (start.execAll sts >>= fun r => Pure.pure (none, r.2)) = _
    rw [hsts]
    rfl
  have hbegin : o.assembler.begin = .ok start := rfl
  obtain ⟨hcounts, hcompiled⟩ := program_counts_agree hbegin hsts hfinish
  obtain ⟨hprogram, -, -, -, -, hreported⟩ := hcompiled o body none c rfl hbody hcompile
  refine ⟨os, s, f, c, hbegin, hsts, hfinish, hcompile, hreported.trans hinstructions, ?_,
    (hcounts c.text hprogram).comments⟩
  rw [(hcounts c.text hprogram).breaks, if_pos htarget, hconstants, hinputs, if_neg hposition,
    hliterals, hinstructions]
  rfl

end Assembler

end ShaderIL
