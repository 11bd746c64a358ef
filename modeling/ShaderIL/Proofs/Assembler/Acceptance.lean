import ShaderIL.Proofs.Assembler.Failure
import ShaderIL.Proofs.Expr.Uses

/-!
# What the accepted statements leave behind

`Assembler.accepted` picks the accepted statements out of the calls of a unit. A unit's tables and its
code are theirs alone (`followAll_accepts`): the tables are those of the opened unit with the uses of the
accepted statements entered in order, and the code is their lines, which refer only to these uses and
show them.
-/

namespace ShaderIL

namespace Statement

/-- What a statement enters in the tables, in order. A destination is emitted after the value. -/
def uses (target : Target) (st : Statement) : List Use := st.exprs.reverse.flatMap (Expr.uses target)

theorem mem_uses {target : Target} {st : Statement} {u : Use} :
    u ∈ st.uses target ↔ ∃ e ∈ st.exprs, ∃ x ∈ e.subterms, u ∈ x.ownUses target := by
  simp only [uses, List.mem_flatMap, List.mem_reverse, Expr.mem_uses]

end Statement

namespace Assembler

/-- An assembler went on to another state: uses were entered and lines were written, which refer only
to what was entered and show it. -/
structure Logs (s s' : Assembler) (us : List Use) (ls : List Line) : Prop where
  target : s'.target = s.target
  device : s'.device = s.device
  tables : s'.draft.tables = s.draft.tables.noteAll us
  code : s'.draft.code.toList = s.draft.code.toList ++ ls
  covered : ∀ l ∈ ls, ∀ r ∈ l.references, r.CoveredBy us s'.draft.literals
  shown : ∀ u ∈ us, ∀ r, u.reference? = some r → ∃ l ∈ ls, r ∈ l.references

variable {s s₁ s' : Assembler} {st : Statement} {o : Outcome} {us vs : List Use} {ls ms : List Line}

namespace Logs

theorem literals_grow (h : Logs s s' us ls) : s.draft.literals.Grows s'.draft.literals := by
  have hl := congrArg Draft.literals h.tables
  change s'.draft.literals = (s.draft.tables.noteAll us).literals at hl
  rw [hl]
  exact s.draft.tables.literals_grow_noteAll us

theorem trans (h : Logs s s₁ us ls) (h' : Logs s₁ s' vs ms) : Logs s s' (us ++ vs) (ls ++ ms) where
  target := h'.target.trans h.target
  device := h'.device.trans h.device
  tables := by rw [h'.tables, h.tables, ← Draft.noteAll_append]
  code := by rw [h'.code, h.code, List.append_assoc]
  covered := by
    intro l hl r hr
    rcases List.mem_append.mp hl with hl | hl
    · exact (h.covered l hl r hr).mono (List.subset_append_left _ _) h'.literals_grow
    · exact (h'.covered l hl r hr).mono (List.subset_append_right _ _) (.refl _)
  shown := by
    intro u hu r hr
    rcases List.mem_append.mp hu with hu | hu
    · obtain ⟨l, hl, hrl⟩ := h.shown u hu r hr
      exact ⟨l, List.mem_append_left _ hl, hrl⟩
    · obtain ⟨l, hl, hrl⟩ := h'.shown u hu r hr
      exact ⟨l, List.mem_append_right _ hl, hrl⟩

/-- A change that concerns neither the target nor the device nor the tables and the code logs
nothing. -/
theorem of_frame (htarget : s'.target = s.target) (hdevice : s'.device = s.device)
    (htables : s'.draft.tables = s.draft.tables) (hcode : s'.draft.code = s.draft.code) :
    Logs s s' [] [] :=
  ⟨htarget, hdevice, htables, by simp [hcode], by simp, by simp⟩

theorem writeLine (s : Assembler) {l : Line} (hl : ∀ r ∈ l.references, False) :
    Logs s (s.writeLine l) [] [l] := by
  refine ⟨rfl, rfl, rfl, Draft.written_code_toList _ _, fun m hm r hr => ?_, by simp⟩
  rw [List.mem_singleton.mp hm] at hr
  exact (hl r hr).elim

theorem of_emission {d : Draft} {os : List Operand} {is : List Instruction}
    (h : Emission [] us s.draft os d is) (hshow : Shows us is) :
    Logs s { s with draft := d } us (is.map .instruction) where
  target := rfl
  device := rfl
  tables := h.tables
  code := h.code
  covered := by
    intro l hl r hr
    obtain ⟨i, hi, rfl⟩ := List.mem_map.mp hl
    exact (h.lines i hi r hr).resolve_left List.not_mem_nil
  shown := by
    intro u hu r hr
    obtain ⟨i, hi, hri⟩ := hshow u hu r hr
    exact ⟨.instruction i, List.mem_map.mpr ⟨i, hi, rfl⟩, hri⟩

end Logs

/-- An accepted statement logs its own uses. -/
theorem Does.logs (h : Does s st o s') : ∃ ls, Logs s s' (st.uses s.target) ls := by
  cases h with
  | declare ht => exact ⟨[], .of_frame rfl rfl rfl rfl⟩
  | @eval e c d herr hemit =>
    obtain ⟨is, his, hshow⟩ := Expr.emit_emission hemit
    have huses : (Statement.eval e).uses s.target = e.uses s.target := by
      simp [Statement.uses, Statement.exprs]
    rw [huses]
    exact ⟨_, .of_emission his hshow⟩
  | @assign dst e d herr hstore =>
    obtain ⟨is, his, hshow⟩ := LValue.store_emission hstore
    have huses : (Statement.assign (some dst) e).uses s.target =
        e.uses s.target ++ dst.toExpr.uses s.target := by
      simp [Statement.uses, Statement.exprs]
    rw [huses]
    exact ⟨_, .of_emission his hshow⟩
  | @comment text =>
    exact ⟨[.comment text], rfl, rfl, rfl, Draft.remarked_code_toList _ _, by simp [Line.references],
      by simp [Statement.uses, Statement.exprs]⟩
  | @word st w flow hw hflow =>
    rw [Statement.uses, Statement.exprs_of_word hw]
    have hflow : Logs s { s with flow } [] [] := .of_frame rfl rfl rfl rfl
    exact ⟨_, hflow.trans (.writeLine _ (by simp [Line.references]))⟩
  | @test st t cond c d flow ht herr htype hemit hflow =>
    obtain ⟨is, his, hshow⟩ := Expr.emit_emission hemit
    have huses : st.uses s.target = cond.uses s.target := by
      simp [Statement.uses, Statement.exprs_of_test ht]
    rw [huses]
    have hcond : Logs s { s with draft := d, flow } (cond.uses s.target) (is.map .instruction) := by
      have hlogs := Logs.of_emission his hshow
      exact ⟨rfl, rfl, hlogs.tables, hlogs.code, hlogs.covered, hlogs.shown⟩
    refine ⟨is.map .instruction ++ [.test t c.source], rfl, rfl, hcond.tables, ?_, ?_, ?_⟩
    · simp [Assembler.writeLine, his.code]
    · intro l hl r hr
      rcases List.mem_append.mp hl with hl | hl
      · exact hcond.covered l hl r hr
      · rw [List.mem_singleton.mp hl] at hr
        exact (his.operands c (List.mem_singleton_self _) r hr).resolve_left List.not_mem_nil
    · intro u hu r hr
      obtain ⟨l, hl, hrl⟩ := hcond.shown u hu r hr
      exact ⟨l, List.mem_append_left _ hl, hrl⟩

/-! ### Calls -/

/-- The accepted statements among calls, with the states around them: those made in an open unit that
leave it without an error. -/
def accepted (s : Assembler) : List Call → List Step
  | [] => []
  | .finish order :: cs =>
    match s.finish order with
    | .ok s' => s'.accepted cs
    | .error _ => s.accepted cs
  | .statement st :: cs =>
    match s.exec st with
    | .ok (o, s') =>
      if s.phase = .building ∧ s'.report.isNone then ⟨s, st, o, s'⟩ :: s'.accepted cs
      else s'.accepted cs
    | .error _ => []

theorem finish_logs {order : Traversal} (h : s.finish order = .ok s') : Logs s s' [] [] := by
  obtain ⟨-, report, -, rfl⟩ := finish_ok h
  exact .of_frame rfl rfl rfl rfl

theorem exec_logs (h : s.exec st = .ok (o, s')) :
    (s.phase = .building ∧ s'.report.isNone → Does s st o s') ∧
    (¬ (s.phase = .building ∧ s'.report.isNone) → Logs s s' [] []) := by
  constructor
  · rintro ⟨hphase, hok⟩
    have hs' : s'.report = none := Option.isNone_iff_eq_none.mp hok
    by_cases hreport : s.report = none
    · exact exec_does hphase hreport h hs'
    · obtain ⟨o', r, hr⟩ := exec_of_not_open (fun hopen => hreport hopen.2) st
      rw [fail_of_report hreport] at hr
      cases hr.symm.trans h
      exact absurd hs' hreport
  · intro hrefused
    have hfail : ∃ r, s' = s.fail r := by
      by_cases hs' : s'.report = none
      · have hphase : s.phase ≠ .building := fun hphase => hrefused ⟨hphase, by simp [hs']⟩
        obtain ⟨o', r, hr⟩ := exec_of_not_open (fun hopen => hphase hopen.1) st
        cases hr.symm.trans h
        exact ⟨r, rfl⟩
      · exact exec_eq_fail h hs'
    obtain ⟨r, rfl⟩ := hfail
    rw [fail_eq]
    exact .of_frame rfl rfl rfl rfl

end Assembler

theorem Step.logs {t : Step} (h : t.pre.Does t.statement t.outcome t.post) :
    t.pre.Logs t.post (t.statement.uses t.pre.target) t.lines := by
  obtain ⟨ls, hls⟩ := h.logs
  rw [Step.lines_eq hls.code]
  exact hls

namespace Assembler

variable {s s' : Assembler} {calls : List Call}

/-- The accepted statements of a run of calls. -/
structure Accepts (s s' : Assembler) (steps : List Step) : Prop where
  does : ∀ t ∈ steps, t.pre.Does t.statement t.outcome t.post
  target : ∀ t ∈ steps, t.pre.target = s.target
  literals : ∀ t ∈ steps, t.post.draft.literals.Grows s'.draft.literals
  logs : Logs s s' (steps.flatMap fun t => t.statement.uses s.target) (steps.flatMap Step.lines)

namespace Accepts

theorem of_logs {s₁ : Assembler} {steps : List Step} (h : Logs s s₁ [] []) (h' : Accepts s₁ s' steps) :
    Accepts s s' steps where
  does := h'.does
  target t ht := (h'.target t ht).trans h.target
  literals := h'.literals
  logs := by
    have hall := h.trans h'.logs
    rw [h.target] at hall
    exact hall

theorem cons {t : Step} {steps : List Step} (h : t.pre.Does t.statement t.outcome t.post)
    (h' : Accepts t.post s' steps) : Accepts t.pre s' (t :: steps) := by
  have htarget := h.target_eq
  have hlogs := h'.logs
  refine ⟨?_, ?_, ?_, ?_⟩
  · exact List.forall_mem_cons.mpr ⟨h, h'.does⟩
  · exact List.forall_mem_cons.mpr ⟨rfl, fun u hu => (h'.target u hu).trans htarget⟩
  · exact List.forall_mem_cons.mpr ⟨hlogs.literals_grow, h'.literals⟩
  · rw [htarget] at hlogs
    exact (Step.logs h).trans hlogs

end Accepts

/-- A unit's tables and code are those of its accepted statements. -/
theorem followAll_accepts (h : s.followAll calls = .ok s') : Accepts s s' (s.accepted calls) := by
  induction calls generalizing s with
  | nil =>
    cases h
    exact ⟨by simp [accepted], by simp [accepted], by simp [accepted], .of_frame rfl rfl rfl rfl⟩
  | cons c calls ih =>
    obtain ⟨s₁, hfollow, h⟩ := except_bind_eq_ok.mp h
    have hrest := ih h
    cases c with
    | statement st =>
      obtain ⟨⟨o, s₂⟩, hexec, hok⟩ := except_bind_eq_ok.mp hfollow
      cases hok
      obtain ⟨hdoes, hlogs⟩ := exec_logs hexec
      simp only [accepted, hexec]
      split_ifs with haccepted
      · exact .cons (t := ⟨s, st, o, s₁⟩) (hdoes haccepted) hrest
      · exact .of_logs (hlogs haccepted) hrest
    | finish order =>
      simp only [follow] at hfollow
      simp only [accepted]
      cases hfinish : s.finish order with
      | ok s₂ =>
        rw [hfinish] at hfollow
        cases hfollow
        exact .of_logs (finish_logs hfinish) hrest
      | error e =>
        rw [hfinish] at hfollow
        cases hfollow
        exact hrest

end Assembler

end ShaderIL
