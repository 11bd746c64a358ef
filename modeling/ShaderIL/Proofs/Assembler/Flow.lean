import ShaderIL.Proofs.Assembler.Listing
import ShaderIL.Proofs.Expr.Assignment

/-!
# Flow in a unit

The flow keywords of a sequence of statements, `flowWord`, against those of the code it leaves. In the
text they are the lines that read as a keyword (`Text.keywords`); where no name breaks a line, these
are the keywords of the drafted lines (`Draft.keywords`, `keywords_code`). The open blocks of an
assembler follow the word (`Does.flow`), and a sound statement is refused exactly if its keyword cannot
stand where the assembler is (`Refuses.flow`). So a sequence of sound statements is carried out as long
as its word begins a structured one (`execAll_of_viable`), stops at the statement where it no longer
does (`execAll_of_misplaced`), and its unit ends without a flow error exactly if the word is structured
(`flow_error_iff_not_structured`).
-/

namespace ShaderIL

/-- The flow keywords that statements write. -/
def flowWord (sts : List Statement) : List Keyword := sts.filterMap Statement.keyword?

/-- The flow keyword of a line. -/
def Line.keyword? : Line → Option Keyword
  | word w => some (.word w)
  | test t _ => some (.test t)
  | instruction _ | comment _ => none

/-- The flow keywords of the drafted lines. -/
def Draft.keywords (d : Draft) : List Keyword := d.code.toList.filterMap Line.keyword?

/-- The lines of text that are flow keywords without a condition. -/
def Keyword.lines : List (String × Keyword) :=
  [("whileloop\n", .word .whileLoop), ("endloop\n", .word .endLoop), ("break\n", .word .breakLoop),
    ("continue\n", .word .continueLoop), ("else\n", .word .elseBranch), ("endif\n", .word .endIf)]

/-- The flow keyword that a line of text is. -/
def Keyword.ofLine? (l : String) : Option Keyword :=
  if "if_logicalnz ".toList.isPrefixOf l.toList then some (.test .ifTrue)
  else if "break_logicalnz ".toList.isPrefixOf l.toList then some (.test .breakTrue)
  else lines.lookup l

/-- The flow keywords of a text, line by line. -/
def Text.keywords (code : String) : List Keyword := (lines code).filterMap Keyword.ofLine?

/-- No name in the trees of the statement breaks a line. -/
def Statement.FlatNames (st : Statement) : Prop := ∀ e ∈ st.exprs, e.FlatNames

/-- The errors that a report lists. -/
def Report.errors : Report → List Error
  | single e => [e]
  | several es => es

/-- No error that the assembler reports is one of flow. -/
def Assembler.FlowErrorFree (s : Assembler) : Prop :=
  ∀ r, s.report = some r → ∀ e ∈ r.errors, e.kind ≠ .flowControl

/-- Apart from where it stands, nothing is wrong with the statement: its trees have no errors in the
unit, a condition is a boolean, and what is declared has a type. -/
structure Statement.Sound (unit : UnitId) (st : Statement) : Prop where
  errors : st.errors unit = []
  condition : ∀ t cond, st.test? = some (t, cond) → cond.type = .bool1
  declares : ∀ t, st = .declare t → t.valid = true

/-- The statements are sound as long as their keywords begin a structured word. -/
def SoundWhileViable (unit : UnitId) (sts : List Statement) : Prop :=
  ∀ before st after, sts = before ++ st :: after → Viable (flowWord (before ++ [st])) → st.Sound unit

theorem flowWord_append (u v : List Statement) : flowWord (u ++ v) = flowWord u ++ flowWord v := by
  simp [flowWord]

theorem flowWord_singleton (st : Statement) : flowWord [st] = st.keyword?.toList := by
  cases h : st.keyword? <;> simp [flowWord, h]

theorem flowWord_snoc (u : List Statement) (st : Statement) :
    flowWord (u ++ [st]) = flowWord u ++ st.keyword?.toList := by
  rw [flowWord_append, flowWord_singleton]

theorem Viable.of_append {u v : List Keyword} (h : Viable (u ++ v)) : Viable u := by
  obtain ⟨w, hw⟩ := h
  exact ⟨v ++ w, by simpa using hw⟩

/-- A word that begins no structured one has a first keyword at which it stops doing so. -/
theorem exists_stop {sts : List Statement} (h : ¬ Viable (flowWord sts)) :
    ∃ before st after, sts = before ++ st :: after ∧ Viable (flowWord before) ∧
      ¬ Viable (flowWord (before ++ [st])) := by
  induction sts using List.reverseRecOn with
  | nil => exact absurd ⟨[], .empty⟩ h
  | append_singleton sts st ih =>
    by_cases hsts : Viable (flowWord sts)
    · exact ⟨sts, st, [], rfl, hsts, h⟩
    · obtain ⟨before, st', after, rfl, hbefore, hstop⟩ := ih hsts
      exact ⟨before, st', after ++ [st], by simp, hbefore, hstop⟩

theorem SoundWhileViable.of_append {unit : UnitId} {u v : List Statement}
    (h : SoundWhileViable unit (u ++ v)) : SoundWhileViable unit u := by
  rintro before st after rfl hviable
  exact h before st (after ++ v) (by simp) hviable

/-! ### Keywords in text -/

/-- A line with a blank is a keyword exactly if the word in front of the blank is that of a test. -/
theorem Keyword.ofLine?_of_blank {l : String} {word rest : List Char} (hword : ' ' ∉ word)
    (h : l.toList = word ++ ' ' :: rest) :
    ofLine? l = if "if_logicalnz".toList = word then some (.test .ifTrue)
      else if "break_logicalnz".toList = word then some (.test .breakTrue) else none := by
  have hbegins : ∀ p : String, ' ' ∉ p.toList →
      ((p ++ " ").toList.isPrefixOf l.toList = true ↔ p.toList = word) := by
    intro p hp
    rw [List.isPrefixOf_iff_prefix, h, String.toList_append]
    exact Text.delimited_prefix_iff hp hword
  have hlookup : lines.lookup l = none := by
    rw [List.lookup_eq_none_iff]
    intro p hp
    have hblank : ∀ p ∈ lines, ' ' ∉ p.1.toList := by decide
    refine bne_iff_ne.mpr fun hl => hblank p hp ?_
    rw [← hl, h]
    simp
  rw [ofLine?, hlookup]
  simp only [show "if_logicalnz " = "if_logicalnz" ++ " " from rfl,
    show "break_logicalnz " = "break_logicalnz" ++ " " from rfl,
    hbegins "if_logicalnz" (by decide), hbegins "break_logicalnz" (by decide)]

theorem Line.ofLine?_text (l : Line) : Keyword.ofLine? l.text = l.keyword? := by
  cases l with
  | instruction i =>
    have htext : (Line.instruction i).text.toList = i.mnemonic.text.toList ++ ' ' ::
        (",".intercalate (i.dst.text :: i.srcs.map SourceOperand.text) ++ "\n").toList := by
      simp [Line.text, Instruction.text]
    obtain ⟨-, hif, hbreak⟩ := i.mnemonic.text_ne
    rw [Keyword.ofLine?_of_blank i.mnemonic.blank_not_mem htext, if_neg hif.symm, if_neg hbreak.symm]
    rfl
  | comment s =>
    have htext : (Line.comment s).text.toList = [';'] ++ ' ' :: (flatten s ++ "\n").toList := by
      simp [Line.text]
    rw [Keyword.ofLine?_of_blank (by decide) htext]
    rfl
  | word w => cases w <;> decide
  | test t c =>
    have htext : (Line.test t c).text.toList = t.text.toList ++ ' ' :: (c.text ++ "\n").toList := by
      simp [Line.text]
    rw [Keyword.ofLine?_of_blank (by cases t <;> decide) htext]
    cases t <;> rfl

/-- The keywords in the text of a closed unit are those of its drafted lines, if no name breaks a
line. -/
theorem Assembler.keywords_code {s : Assembler} (hphase : s.phase = .finalized) (h : s.CodeIn .flat) :
    Text.keywords s.code = s.draft.keywords := by
  have hsingle : ∀ t ∈ s.draft.code.toList.map Line.text ++ ["end\n"], Text.SingleLine t := by
    intro t ht
    rcases List.mem_append.mp ht with ht | ht
    · obtain ⟨l, hl, rfl⟩ := List.mem_map.mp ht
      exact (h l hl).singleLine
    · exact List.mem_singleton.mp ht ▸ ⟨"end", by simp [Text.Flat], rfl⟩
  have htext : s.code = String.join (s.draft.code.toList.map Line.text ++ ["end\n"]) := by
    rw [code_eq hphase, String.join_append]
    rfl
  have hlines : (s.draft.code.toList.map Line.text).filterMap Keyword.ofLine? = s.draft.keywords := by
    rw [List.filterMap_map]
    exact congrArg (List.filterMap · _) (funext Line.ofLine?_text)
  rw [Text.keywords, htext, Text.lines_join_of_singleLine hsingle, List.filterMap_append, hlines]
  exact List.append_nil _

/-! ### One statement -/

theorem Draft.keywords_of_code {d d' : Draft} (ls : List Line)
    (h : d'.code.toList = d.code.toList ++ ls) :
    d'.keywords = d.keywords ++ ls.filterMap Line.keyword? := by
  rw [keywords, h, List.filterMap_append]
  rfl

theorem Draft.Grows.keywords_eq {d d' : Draft} {is : List Instruction} (h : d.Grows d' is) :
    d'.keywords = d.keywords := by
  have hnone : (is.map Line.instruction).filterMap Line.keyword? = [] := by
    rw [List.filterMap_map]
    exact List.filterMap_eq_nil_iff.mpr fun _ _ => rfl
  rw [Draft.keywords_of_code _ h.code, hnone, List.append_nil]

theorem Statement.keyword?_of_word {st : Statement} {w : FlowWord} (h : st.word? = some w) :
    st.keyword? = some (.word w) := by
  simp [keyword?, h]

theorem Statement.keyword?_of_test {st : Statement} {t : FlowTest} {cond : Expr}
    (h : st.test? = some (t, cond)) : st.keyword? = some (.test t) := by
  cases st with
  | breakIf | ifTrue =>
    cases h
    rfl
  | _ => cases h

theorem blocksAfter_singleton (flow : List Block) (k : Keyword) :
    blocksAfter flow [k] = k.next flow := by
  cases h : k.next flow <;> simp [blocksAfter, h]

namespace Assembler

variable {s s' : Assembler} {st : Statement} {o : Outcome}

/-- An accepted statement writes its keyword and opens or closes a block with it. -/
theorem Does.flow (h : Does s st o s') : blocksAfter s.flow st.keyword?.toList = some s'.flow ∧
    s'.draft.keywords = s.draft.keywords ++ st.keyword?.toList := by
  cases h with
  | declare ht => exact ⟨rfl, (List.append_nil _).symm⟩
  | eval herr hemit =>
    obtain ⟨is, his⟩ := Emit.Growing.expr _ _ _ _ _ hemit
    exact ⟨rfl, his.keywords_eq.trans (List.append_nil _).symm⟩
  | assign herr hstore =>
    obtain ⟨is, his⟩ := Emit.Growing.store _ _ _ _ _ _ hstore
    exact ⟨rfl, his.keywords_eq.trans (List.append_nil _).symm⟩
  | @comment text =>
    exact ⟨rfl, Draft.keywords_of_code [.comment text] (by simp)⟩
  | @word st w flow hw hflow =>
    rw [Statement.keyword?_of_word hw]
    exact ⟨(blocksAfter_singleton _ _).trans hflow,
      Draft.keywords_of_code [.word w] (by simp [writeLine])⟩
  | @test st t cond c d flow ht herr htype hemit hflow =>
    obtain ⟨is, his⟩ := Emit.Growing.expr _ _ _ _ _ hemit
    rw [Statement.keyword?_of_test ht]
    refine ⟨(blocksAfter_singleton _ _).trans hflow, ?_⟩
    have hline : ({ s with draft := d, flow }.writeLine (.test t c.source)).draft.keywords =
        d.keywords ++ [.test t] :=
      Draft.keywords_of_code [.test t c.source] (by simp [writeLine])
    rw [hline, his.keywords_eq]
    rfl

/-- A statement that is sound, if only it has a place, is refused for want of a place. -/
theorem Refuses.flow {r : Report} (h : Refuses s st r)
    (hsound : blocksAfter s.flow st.keyword?.toList ≠ none → st.Sound s.unit) :
    blocksAfter s.flow st.keyword?.toList = none ∧ ∃ e, r = .single e ∧ e.kind = .flowControl := by
  have hplaced : s.HasPlaceFor st → st.Sound s.unit := by
    intro hplace
    refine hsound ?_
    cases hk : st.keyword? with
    | none => exact nofun
    | some k =>
      rw [Option.toList_some, blocksAfter_singleton]
      exact hplace k hk
  cases h with
  | variableType ht =>
    have hvalid := (hplaced nofun).declares _ rfl
    rw [ht] at hvalid
    cases hvalid
  | invalid hplace herr => exact absurd (hplaced hplace).errors herr
  | conditionType hplace ht herr htype => exact absurd ((hplaced hplace).condition _ _ ht) htype
  | @misplaced st k e hk hnext he =>
    rw [hk, Option.toList_some, blocksAfter_singleton]
    exact ⟨hnext, e, rfl, he⟩

/-- A sound statement over typed trees does not fault; one without a place never does. -/
theorem exec_returns (hphase : s.phase = .building) (hreport : s.report = none)
    (h : s.HasPlaceFor st → st.Sound s.unit ∧ ∀ e ∈ st.exprs, e.WellTyped) :
    ∃ o s', s.exec st = .ok (o, s') := by
  have hplain : st.keyword? = none → s.HasPlaceFor st := by
    intro hnone k hk
    rw [hnone] at hk
    cases hk
  have hemit : ∀ e, e ∈ st.exprs → s.HasPlaceFor st → e.errors (some s.unit) = [] →
      ∃ c d, s.emitting (e.emit s.target) = .ok (c, { s with draft := d }) := by
    intro e he hplace herr
    obtain ⟨c, d, hd, -⟩ := Expr.Accepted.emit_ok s.target ⟨(h hplace).2 e he, herr⟩ s.draft
    exact ⟨c, d, emitting_ok hd⟩
  have hcondition : ∀ t cond, st.test? = some (t, cond) → s.HasPlaceFor st →
      ∃ c s', s.condition t cond = .ok (some c, s') := by
    intro t cond ht hplace
    have herr : st.errors s.unit = cond.errors (some s.unit) ∧ cond ∈ st.exprs := by
      cases st with
      | breakIf | ifTrue =>
        cases ht
        exact ⟨rfl, List.mem_singleton_self _⟩
      | _ => cases ht
    have hclean : cond.errors (some s.unit) = [] := herr.1 ▸ (h hplace).1.errors
    obtain ⟨c, d, hc⟩ := hemit cond herr.2 hplace hclean
    refine ⟨c, { s with draft := d }, ?_⟩
    simp only [condition, hclean, (h hplace).1.condition t cond ht, hc, List.isEmpty_nil,
      Bool.not_true, bne_self_eq_false, Bool.false_eq_true, if_false]
    rfl
  cases st with
  | declare t => exact ⟨_, _, rfl⟩
  | eval e =>
    have hclean : e.errors (some s.unit) = [] := (h (hplain rfl)).1.errors
    obtain ⟨c, d, hc⟩ := hemit e (List.mem_singleton_self _) (hplain rfl) hclean
    refine ⟨.value (.ok c), { s with draft := d }, ?_⟩
    simp only [exec, Assembler.eval, hphase, hreport, hclean, hc, bne_self_eq_false,
      Bool.false_eq_true, if_false, List.isEmpty_nil, if_true]
    rfl
  | assign dst e =>
    cases dst with
    | none => exact absurd (h (hplain rfl)).1.errors (List.cons_ne_nil _ _)
    | some dst =>
      have hclean : LValue.assignErrors s.unit (some dst) e = [] := (h (hplain rfl)).1.errors
      obtain ⟨hdst, he, hacc⟩ := LValue.assignErrors_eq_nil hclean
      have htyped := (h (hplain rfl)).2
      obtain ⟨d, hd, -⟩ : ∃ d, dst.store s.target e s.draft = .ok ((), d) ∧ _ := LValue.store_ok
        ⟨htyped e (by simp [Statement.exprs]), he⟩ ⟨htyped _ (by simp [Statement.exprs]), hdst⟩
        hacc s.draft
      refine ⟨.done, { s with draft := d }, ?_⟩
      simp only [exec, Assembler.assign, guarded_eq hphase hreport, hclean, emitting_ok hd,
        List.isEmpty_nil, if_true]
      rfl
  | comment text => exact ⟨.done, _, by rw [exec, comment, guarded_eq hphase hreport]; rfl⟩
  | whileLoop => exact ⟨.done, _, by rw [exec, whileLoop, guarded_eq hphase hreport]; rfl⟩
  | endLoop =>
    rw [exec, endLoop, guarded_eq hphase hreport]
    split <;> exact ⟨_, _, rfl⟩
  | breakIf cond =>
    rw [exec, breakIf, guarded_eq hphase hreport]
    by_cases hloop : s.inLoop = true
    · have hplace : s.HasPlaceFor (.breakIf cond) := by
        rintro k ⟨⟩
        simp [next_jump (s := s) (k := .test .breakTrue) rfl, hloop]
      obtain ⟨c, s', hc⟩ := hcondition .breakTrue cond rfl hplace
      rw [if_neg (by simp [hloop]), hc]
      exact ⟨_, _, rfl⟩
    · rw [if_pos (by simpa using hloop)]
      exact ⟨_, _, rfl⟩
  | ifTrue cond =>
    have hplace : s.HasPlaceFor (.ifTrue cond) := by
      rintro k ⟨⟩
      exact Option.some_ne_none _
    obtain ⟨c, s', hc⟩ := hcondition .ifTrue cond rfl hplace
    rw [exec, ifTrue, guarded_eq hphase hreport, hc]
    exact ⟨_, _, rfl⟩
  | breakLoop =>
    rw [exec, breakLoop, jump, guarded_eq hphase hreport]
    split <;> exact ⟨_, _, rfl⟩
  | continueLoop =>
    rw [exec, continueLoop, jump, guarded_eq hphase hreport]
    split <;> exact ⟨_, _, rfl⟩
  | elseBranch =>
    rw [exec, elseBranch, guarded_eq hphase hreport]
    split <;> exact ⟨_, _, rfl⟩
  | endIf =>
    rw [exec, endIf, guarded_eq hphase hreport]
    split <;> exact ⟨_, _, rfl⟩

/-! ### Sequences of statements -/

theorem execAll_append_ok {u v : List Statement} : ∀ {s : Assembler} {os : List Outcome},
    s.execAll (u ++ v) = .ok (os, s') ↔ ∃ os₁ s₁ os₂, s.execAll u = .ok (os₁, s₁) ∧
      s₁.execAll v = .ok (os₂, s') ∧ os = os₁ ++ os₂ := by
  induction u with
  | nil =>
    intro s os
    constructor
    · exact fun h => ⟨[], s, os, rfl, h, rfl⟩
    · rintro ⟨os₁, s₁, os₂, h₁, h₂, rfl⟩
      cases h₁
      exact h₂
  | cons st u ih =>
    intro s os
    rw [List.cons_append, execAll_cons_ok]
    constructor
    · rintro ⟨o, s₁, os', hexec, h, rfl⟩
      obtain ⟨os₁, s₂, os₂, h₁, h₂, rfl⟩ := ih.mp h
      exact ⟨o :: os₁, s₂, os₂, execAll_cons_ok.mpr ⟨o, s₁, os₁, hexec, h₁, rfl⟩, h₂, rfl⟩
    · rintro ⟨os', s₂, os₂, h, h₂, rfl⟩
      obtain ⟨o, s₁, os₁, hexec, h₁, rfl⟩ := execAll_cons_ok.mp h
      exact ⟨o, s₁, os₁ ++ os₂, hexec, ih.mpr ⟨os₁, s₂, os₂, h₁, h₂, rfl⟩, rfl⟩

theorem execAll_singleton (h : s.exec st = .ok (o, s')) :
    s.execAll [st] = .ok ([o], s') :=
  execAll_cons_ok.mpr ⟨o, s', [], h, rfl, rfl⟩

theorem execAll_of_report (h : s.report ≠ none) : ∀ sts : List Statement,
    ∃ os, s.execAll sts = .ok (os, s)
  | [] => ⟨[], rfl⟩
  | st :: sts => by
    obtain ⟨o, r, hexec⟩ := exec_of_not_open (fun hopen => h hopen.2) st
    rw [fail_of_report h] at hexec
    obtain ⟨os, hrest⟩ := execAll_of_report h sts
    exact ⟨o :: os, execAll_cons_ok.mpr ⟨o, s, os, hexec, hrest, rfl⟩⟩

/-- The assembler is in the unit that `start` opened, without an error, and its keywords are `word`. -/
structure Flowed (start s : Assembler) (word : List Keyword) : Prop where
  phase : s.phase = .building
  report : s.report = none
  unit : s.unit = start.unit
  blocks : blocksAfter [] word = some s.flow
  keywords : s.draft.keywords = word

namespace Flowed

variable {s₀ start : Assembler} {word : List Keyword}

theorem of_begin (hbegin : s₀.begin = .ok start) : Flowed start start [] := by
  unfold begin at hbegin
  split_ifs at hbegin
  cases hbegin
  exact ⟨rfl, rfl, rfl, rfl, rfl⟩

/-- The keywords after a statement have places exactly if the statement's has one now. -/
theorem blocks_append (h : Flowed start s word) (v : List Keyword) :
    blocksAfter [] (word ++ v) = blocksAfter s.flow v := by
  rw [blocksAfter_append, h.blocks, Option.bind_some]

theorem sound_of_placed (h : Flowed start s word)
    (hsound : Viable (word ++ st.keyword?.toList) → st.Sound start.unit) :
    blocksAfter s.flow st.keyword?.toList ≠ none → st.Sound s.unit := by
  intro hplaced
  rw [h.unit]
  refine hsound (viable_iff.mpr ?_)
  rw [h.blocks_append]
  exact Option.ne_none_iff_exists'.mp hplaced

/-- A statement goes on with the word, or stops at its keyword. -/
theorem step (h : Flowed start s word)
    (hsound : Viable (word ++ st.keyword?.toList) → st.Sound start.unit)
    (hexec : s.exec st = .ok (o, s')) :
    Flowed start s' (word ++ st.keyword?.toList) ∨ (¬ Viable (word ++ st.keyword?.toList) ∧
      ∃ e, e.kind = .flowControl ∧ s' = { s with report := some (.single e) }) := by
  rcases exec_cases h.phase h.report hexec with ⟨r, hrefuses, rfl⟩ | hdoes
  · obtain ⟨hnone, e, rfl, he⟩ := hrefuses.flow (h.sound_of_placed hsound)
    refine .inr ⟨fun hviable => ?_, e, he, ?_⟩
    · obtain ⟨flow, hflow⟩ := viable_iff.mp hviable
      rw [h.blocks_append, hnone] at hflow
      cases hflow
    · rw [fail_eq, h.report, Option.getD_none]
  · obtain ⟨hblocks, hkeywords⟩ := hdoes.flow
    refine .inl ⟨hdoes.phase_eq.trans h.phase, hdoes.report_eq.trans h.report,
      hdoes.unit_eq.trans h.unit, (h.blocks_append _).trans hblocks, ?_⟩
    rw [hkeywords, h.keywords]

theorem viable (h : Flowed start s word) : Viable word := viable_iff.mpr ⟨_, h.blocks⟩

theorem structured_iff_flow (h : Flowed start s word) : Structured false word ↔ s.flow = [] := by
  rw [structured_iff, h.blocks, Option.some_inj]

end Flowed

variable {s₀ start : Assembler} {sts : List Statement} {os : List Outcome}

/-- Statements whose keywords begin a structured word are carried out. -/
theorem execAll_of_viable (hstart : Flowed start start []) (hviable : Viable (flowWord sts))
    (hsound : SoundWhileViable start.unit sts) (h : start.execAll sts = .ok (os, s)) :
    Flowed start s (flowWord sts) := by
  induction sts using List.reverseRecOn generalizing os s with
  | nil =>
    cases h
    exact hstart
  | append_singleton sts st ih =>
    obtain ⟨os₁, s₁, os₂, h₁, h₂, rfl⟩ := execAll_append_ok.mp h
    obtain ⟨o, s₂, _, hexec, hnil, rfl⟩ := execAll_cons_ok.mp h₂
    cases hnil
    have hsts := hsound sts st [] rfl
    rw [flowWord_snoc] at hviable hsts ⊢
    have hflowed := ih hviable.of_append hsound.of_append h₁
    exact (hflowed.step hsts hexec).resolve_right fun hstop => hstop.1 hviable

/-- At the statement where the keywords stop beginning a structured word, a flow error is recorded and
nothing is written from then on. -/
theorem execAll_of_misplaced {before after : List Statement} (hstart : Flowed start start [])
    (hbefore : Viable (flowWord before)) (hstop : ¬ Viable (flowWord (before ++ [st])))
    (hsound : SoundWhileViable start.unit (before ++ st :: after))
    (h : start.execAll (before ++ st :: after) = .ok (os, s)) :
    ∃ os₁ s₁ o e, start.execAll before = .ok (os₁, s₁) ∧ Flowed start s₁ (flowWord before) ∧
      e.kind = .flowControl ∧ s₁.exec st = .ok (o, { s₁ with report := some (.single e) }) ∧
      s = { s₁ with report := some (.single e) } := by
  obtain ⟨os₁, s₁, os₂, h₁, h₂, rfl⟩ := execAll_append_ok.mp h
  obtain ⟨o, s₂, os₃, hexec, hrest, rfl⟩ := execAll_cons_ok.mp h₂
  have hflowed := execAll_of_viable hstart hbefore hsound.of_append h₁
  have hst := hsound before st after rfl
  rw [flowWord_snoc] at hstop hst
  rcases hflowed.step hst hexec with hdone | ⟨-, e, he, rfl⟩
  · exact absurd hdone.viable hstop
  · obtain ⟨os₄, hskip⟩ := execAll_of_report (s := { s₁ with report := some (.single e) }) nofun after
    rw [hskip] at hrest
    cases hrest
    exact ⟨os₁, s₁, o, e, h₁, hflowed, he, hexec, rfl⟩

theorem execAll_returns (hstart : Flowed start start []) (hsound : SoundWhileViable start.unit sts)
    (htyped : ∀ st ∈ sts, ∀ e ∈ st.exprs, e.WellTyped) :
    ∃ os s, start.execAll sts = .ok (os, s) := by
  induction sts using List.reverseRecOn with
  | nil => exact ⟨[], start, rfl⟩
  | append_singleton sts st ih =>
    obtain ⟨os, s, h⟩ := ih hsound.of_append fun st hst => htyped st (by simp [hst])
    have hlast : ∃ o s', s.exec st = .ok (o, s') := by
      by_cases hviable : Viable (flowWord sts)
      · have hflowed := execAll_of_viable hstart hviable hsound.of_append h
        have hst := hsound sts st [] rfl
        rw [flowWord_snoc] at hst
        refine exec_returns hflowed.phase hflowed.report fun hplace => ⟨?_, htyped st (by simp)⟩
        refine hflowed.sound_of_placed hst ?_
        cases hk : st.keyword? with
        | none => exact nofun
        | some k =>
          rw [Option.toList_some, blocksAfter_singleton]
          exact hplace k hk
      · obtain ⟨before, st', after, rfl, hbefore, hstop⟩ := exists_stop hviable
        obtain ⟨_, s₁, _, e, -, -, -, -, rfl⟩ :=
          execAll_of_misplaced hstart hbefore hstop hsound.of_append h
        obtain ⟨o, r, hexec⟩ :=
          exec_of_not_open (s := { s₁ with report := some (.single e) }) (by simp) st
        exact ⟨o, _, hexec⟩
    obtain ⟨o, s', hexec⟩ := hlast
    exact ⟨os ++ [o], s', execAll_append_ok.mpr ⟨os, s, [o], h, execAll_singleton hexec, rfl⟩⟩

/-! ### The end of the unit -/

theorem foldl_failWith (h : s.report = none) (es : List Error) :
    es.foldl failWith s = { s with report := es.head?.map .single } := by
  cases es with
  | nil => rw [List.foldl_nil, List.head?_nil, Option.map_none, ← h]
  | cons e es =>
    have hfail : s.failWith e = { s with report := some (.single e) } := by
      rw [failWith, fail_eq, h, Option.getD_none]
    rw [List.foldl_cons, hfail]
    exact foldl_failWith_of_report (s := { s with report := some (.single e) })
      (Option.some_ne_none _) es

/-- The end of a unit without an error reports the first thing that is not closed or too large. -/
theorem finish_of_report_none (hphase : s.phase = .building) (hreport : s.report = none)
    (order : Traversal) : s.finish order =
      .ok { s with phase := .finalized, report := (s.closingErrors order).head?.map .single } := by
  rw [finish_eq hphase, foldl_failWith hreport]

theorem kind_of_mem_closingErrors {order : Traversal} (hflow : s.flow = []) {e : Error}
    (he : e ∈ s.closingErrors order) : e.kind = .resourceLimit := by
  simp only [closingErrors, openBlockErrors, hflow, List.nil_append, List.mem_append, inputErrors,
    bufferErrors, List.mem_filterMap, List.mem_flatMap] at he
  rcases he with ⟨slot, -, he⟩ | ⟨⟨slot, size⟩, -, he | he⟩ <;> split_ifs at he
  · cases he
    rfl
  · rw [List.mem_singleton.mp he]
    rfl
  · cases he
  · rw [List.mem_singleton.mp he]
    rfl
  · cases he

/-- What the end of the unit finds when every keyword had a place. -/
theorem Flowed.finish {word : List Keyword} (h : Flowed start s word) (order : Traversal) :
    ∃ s', s.finish order = .ok s' ∧ s'.phase = .finalized ∧ s'.draft = s.draft ∧
      (Structured false word → s'.FlowErrorFree) ∧
      (¬ Structured false word → ∃ e, e.kind = .flowControl ∧ s'.report = some (.single e)) := by
  refine ⟨_, finish_of_report_none h.phase h.report order, rfl, rfl, fun hstructured r hr => ?_,
    fun hopen => ?_⟩
  · have hflow := h.structured_iff_flow.mp hstructured
    obtain ⟨e, he, rfl⟩ := Option.map_eq_some_iff.mp hr
    have hkind := kind_of_mem_closingErrors hflow (List.mem_of_head? he)
    intro e' he'
    rw [List.mem_singleton.mp he', hkind]
    decide
  · obtain ⟨b, flow, hflow⟩ :=
      List.exists_cons_of_ne_nil fun hflow => hopen (h.structured_iff_flow.mpr hflow)
    exact ⟨.unterminated s.flow.length b.text, rfl,
      by simp [closingErrors, openBlockErrors, hflow]⟩

theorem not_flowErrorFree {e : Error} (he : e.kind = .flowControl)
    (h : s.report = some (.single e)) : ¬ s.FlowErrorFree :=
  fun hfree => hfree _ h e (List.mem_singleton_self e) he

/-- The keywords that statements leave in the text of a unit which is closed after them. -/
theorem Flowed.keywords_code {word : List Keyword} (h : Flowed start s word)
    (hbegin : s₀.begin = .ok start) (hexec : start.execAll sts = .ok (os, s))
    (hphase : s'.phase = .finalized) (hdraft : s'.draft = s.draft)
    (hnames : ∀ st ∈ sts, st.FlatNames) : Text.keywords s'.code = word := by
  have hin : s.CodeIn .flat := execAll_codeIn hexec (fun st hst e he => (hnames st hst e he).leaves)
    (codeIn_of_begin hbegin)
  have hin' : s'.CodeIn .flat := by
    rw [CodeIn, hdraft]
    exact hin
  rw [Assembler.keywords_code hphase hin', hdraft, h.keywords]

/-- **Flow control takes exactly the structured words.** Let statements be given to a unit that was just
opened, sound as long as their keywords begin a structured word. Over typed trees they do not fault.
Once they were carried out, the end of the unit reports no flow error exactly if the keywords form a
structured word. Then that word is what stands in the text of the code. If the keywords stop beginning a
structured word at some statement, this statement records a flow error, and neither its keyword nor a
later one stands in the text. If only blocks are left open, the end of the unit records the error. What
is said of the text needs names that do not break a line. -/
theorem flow_error_iff_not_structured (hbegin : s₀.begin = .ok start)
    (hsound : SoundWhileViable start.unit sts) :
    ((∀ st ∈ sts, ∀ e ∈ st.exprs, e.WellTyped) → ∃ os s, start.execAll sts = .ok (os, s)) ∧
    ∀ os s, start.execAll sts = .ok (os, s) → ∀ order, ∃ s', s.finish order = .ok s' ∧
      (s'.FlowErrorFree ↔ Structured false (flowWord sts)) ∧
      (Structured false (flowWord sts) → (∀ st ∈ sts, st.FlatNames) →
        Text.keywords s'.code = flowWord sts) ∧
      (¬ Viable (flowWord sts) → ∃ before st after os₁ s₁ o e, sts = before ++ st :: after ∧
        Viable (flowWord before) ∧ ¬ Viable (flowWord (before ++ [st])) ∧
        start.execAll before = .ok (os₁, s₁) ∧ s₁.report = none ∧ e.kind = .flowControl ∧
        s₁.exec st = .ok (o, { s₁ with report := some (.single e) }) ∧
        s'.report = some (.single e) ∧ s'.draft = s₁.draft ∧
        ((∀ st ∈ before, st.FlatNames) → Text.keywords s'.code = flowWord before)) ∧
      (Viable (flowWord sts) → ¬ Structured false (flowWord sts) → s.report = none ∧
        ((∀ st ∈ sts, st.FlatNames) → Text.keywords s'.code = flowWord sts) ∧
        ∃ e, e.kind = .flowControl ∧ s'.report = some (.single e)) := by
  have hstart := Flowed.of_begin hbegin
  refine ⟨execAll_returns hstart hsound, fun os s h order => ?_⟩
  by_cases hviable : Viable (flowWord sts)
  · have hflowed := execAll_of_viable hstart hviable hsound h
    obtain ⟨s', hfinish, hphase, hdraft, hclosed, hopen⟩ := hflowed.finish order
    have hkeywords : (∀ st ∈ sts, st.FlatNames) → Text.keywords s'.code = flowWord sts :=
      hflowed.keywords_code hbegin h hphase hdraft
    refine ⟨s', hfinish, ⟨fun hfree => ?_, hclosed⟩, fun _ => hkeywords,
      fun hstop => absurd hviable hstop,
      fun _ hstructured => ⟨hflowed.report, hkeywords, hopen hstructured⟩⟩
    by_contra hstructured
    obtain ⟨e, he, hreport⟩ := hopen hstructured
    exact not_flowErrorFree he hreport hfree
  · have hstructured : ¬ Structured false (flowWord sts) :=
      fun hstructured => hviable ⟨[], by simpa using hstructured⟩
    obtain ⟨before, st, after, rfl, hbefore, hstop⟩ := exists_stop hviable
    obtain ⟨os₁, s₁, o, e, h₁, hflowed, he, hexec, rfl⟩ :=
      execAll_of_misplaced hstart hbefore hstop hsound h
    have hfinish := finish_eq (s := { s₁ with report := some (.single e) }) hflowed.phase order
    rw [foldl_failWith_of_report (s := { s₁ with report := some (.single e) }) nofun] at hfinish
    refine ⟨_, hfinish, ⟨fun hfree => absurd hfree (not_flowErrorFree he rfl),
      fun h => absurd h hstructured⟩, fun h => absurd h hstructured, fun _ => ?_,
      fun h => absurd h hviable⟩
    exact ⟨before, st, after, os₁, s₁, o, e, rfl, hbefore, hstop, h₁, hflowed.report, he, hexec, rfl,
      rfl, hflowed.keywords_code hbegin h₁ rfl rfl⟩

/-- The premises can be met: a loop with a jump in either branch is accepted and stands in the code; a
loop that is closed like a branch is not accepted. -/
theorem flow_of_branches_in_loop :
    let v : Variable := ⟨.bool1, some ⟨⟨0, 1⟩, 0⟩⟩
    let start : Assembler := { phase := .building, generation := 1 }
    (∃ os s s', start.execAll [.declare .bool1, .whileLoop, .ifTrue (.var v), .breakLoop, .elseBranch,
        .continueLoop, .endIf, .endLoop] = .ok (os, s) ∧ s.finish = .ok s' ∧ s'.FlowErrorFree ∧
      Text.keywords s'.code = [.word .whileLoop, .test .ifTrue, .word .breakLoop, .word .elseBranch,
        .word .continueLoop, .word .endIf, .word .endLoop]) ∧
    ∃ os s s', start.execAll [.whileLoop, .endIf, .endLoop] = .ok (os, s) ∧ s.finish = .ok s' ∧
      ¬ s'.FlowErrorFree := by
  intro v start
  have hbegin : ({} : Assembler).begin = .ok start := rfl
  have hplain : ∀ st : Statement, st.errors start.unit = [] → st.test? = none →
      (∀ t, st = .declare t → t = .bool1) → st.Sound start.unit := by
    intro st herr htest hdeclare
    refine ⟨herr, fun t cond ht => ?_, fun t ht => ?_⟩
    · rw [htest] at ht
      cases ht
    · rw [hdeclare t ht]
      rfl
  have hbranch : (Statement.ifTrue (.var v)).Sound start.unit := by
    refine ⟨rfl, ?_, ?_⟩
    · rintro t cond ⟨⟩
      rfl
    · rintro t ⟨⟩
  have hvar : (Expr.var v).WellTyped := by
    intro x hx
    cases List.mem_singleton.mp hx
    rfl
  have hflat : (Expr.var v).FlatNames := ⟨by simp [Expr.subterms], by simp [Expr.subterms]⟩
  constructor
  · let sts : List Statement := [.declare .bool1, .whileLoop, .ifTrue (.var v), .breakLoop,
      .elseBranch, .continueLoop, .endIf, .endLoop]
    have hsound : SoundWhileViable start.unit sts := by
      intro before st after hsts _
      have hst : st ∈ sts := by simp [hsts]
      simp only [sts, List.mem_cons, List.not_mem_nil, or_false] at hst
      rcases hst with rfl | rfl | rfl | rfl | rfl | rfl | rfl | rfl
      case inr.inr.inl => exact hbranch
      all_goals exact hplain _ rfl rfl (by simp)
    have htyped : ∀ st ∈ sts, ∀ e ∈ st.exprs, e.WellTyped := by
      intro st hst e he
      simp only [sts, List.mem_cons, List.not_mem_nil, or_false] at hst
      rcases hst with rfl | rfl | rfl | rfl | rfl | rfl | rfl | rfl
      case inr.inr.inl => exact List.mem_singleton.mp he ▸ hvar
      all_goals cases he
    obtain ⟨hreturns, hflow⟩ := flow_error_iff_not_structured hbegin hsound
    obtain ⟨os, s, h⟩ := hreturns htyped
    obtain ⟨s', hfinish, hfree, hkeywords, -⟩ := hflow os s h .ascending
    have hstructured : Structured false (flowWord sts) := structured_iff.mpr rfl
    have hnames : ∀ st ∈ sts, st.FlatNames := by
      simp [sts, Statement.FlatNames, Statement.exprs, hflat]
    exact ⟨os, s, s', h, hfinish, hfree.mpr hstructured, hkeywords hstructured hnames⟩
  · let sts : List Statement := [.whileLoop, .endIf, .endLoop]
    have hsound : SoundWhileViable start.unit sts := by
      intro before st after hsts _
      have hst : st ∈ sts := by simp [hsts]
      simp only [sts, List.mem_cons, List.not_mem_nil, or_false] at hst
      rcases hst with rfl | rfl | rfl
      all_goals exact hplain _ rfl rfl (by simp)
    obtain ⟨hreturns, hflow⟩ := flow_error_iff_not_structured hbegin hsound
    obtain ⟨os, s, h⟩ := hreturns (by simp [sts, Statement.exprs])
    obtain ⟨s', hfinish, hfree, -⟩ := hflow os s h .ascending
    have hstructured : ¬ Structured false (flowWord sts) := by
      rw [structured_iff]
      decide
    exact ⟨os, s, s', h, hfinish, mt hfree.mp hstructured⟩

/-- A name that breaks a line can bring a keyword into the code: two sound statements without flow leave
a text that closes a loop. -/
theorem line_break_forges_keyword :
    let v : Variable := ⟨.float4, some ⟨⟨0, 1⟩, 0⟩⟩
    let start : Assembler := { phase := .building, generation := 1 }
    let sts : List Statement :=
      [.declare .float4, .assign (some (.var v)) (.external .float4 "r0\nendloop")]
    ({} : Assembler).begin = .ok start ∧ (∀ st ∈ sts, st.Sound start.unit) ∧ flowWord sts = [] ∧
      ∃ os s f, start.execAll sts = .ok (os, s) ∧ s.finish = .ok f ∧ f.report = none ∧
        f.code = "mov r0,r0\nendloop\nend\n" ∧ Text.keywords f.code = [.word .endLoop] := by
  intro v start sts
  refine ⟨rfl, ?_, rfl, _, _, _, rfl, rfl, rfl, by decide +kernel, by decide +kernel⟩
  intro st hst
  simp only [sts, List.mem_cons, List.not_mem_nil, or_false] at hst
  rcases hst with rfl | rfl
  · exact ⟨rfl, by rintro t cond ⟨⟩, by rintro t ⟨⟩; rfl⟩
  · exact ⟨rfl, by rintro t cond ⟨⟩, by rintro t ⟨⟩⟩

end Assembler

end ShaderIL
