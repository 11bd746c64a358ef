import ShaderIL.Assembler.Program
import ShaderIL.Proofs.Assembler.Run

/-!
# Failure

A statement that is refused records its report and does nothing else: `exec_eq_fail` covers the
statements of an open unit, `exec_of_not_open` those outside a unit or after an error, which are
always refused. A report that is there stays, so after the first error of a unit its statements and its
end leave everything as it is (`followAll_of_report`), and statements after the end of a unit leave its
text as it is (`followAll_of_finalized`).
-/

namespace ShaderIL

/-- What can follow the opening of a unit: a statement, or its end. -/
inductive Call where
  | statement (st : Statement)
  | finish (order : Traversal := .ascending)

/-- The call ends the unit. -/
def Call.isFinish : Call → Bool
  | statement _ => false
  | finish _ => true

namespace Assembler

/-- Make a call. An end that is refused changes nothing. -/
def follow (s : Assembler) : Call → Except Fault Assembler
  | .statement st => do
    let (_, s) ← s.exec st
    return s
  | .finish order =>
    match s.finish order with
    | .ok s => .ok s
    | .error _ => .ok s

/-- Make calls in order. -/
def followAll (s : Assembler) : List Call → Except Fault Assembler
  | [] => .ok s
  | c :: cs => do
    let s ← s.follow c
    s.followAll cs

variable {s s' : Assembler} {st : Statement} {o : Outcome}

/-! ### Recording a report -/

theorem fail_eq (s : Assembler) (r : Report) :
    s.fail r = { s with report := some (s.report.getD r) } := by
  unfold fail
  cases hr : s.report with
  | none => rfl
  | some r' =>
    rw [Option.isNone_some, if_neg (by decide), Option.getD_some, ← hr]

theorem fail_of_report (h : s.report ≠ none) (r : Report) : s.fail r = s := by
  obtain ⟨r', hr⟩ := Option.ne_none_iff_exists'.mp h
  rw [fail_eq, hr, Option.getD_some, ← hr]

theorem fail_only_report (s : Assembler) (r : Report) :
    s.fail r = { s with report := (s.fail r).report } ∧
      ∀ r', s.report = some r' → (s.fail r).report = some r' := by
  rw [fail_eq]
  refine ⟨rfl, fun r' hr => ?_⟩
  simp [hr]

/-! ### Statements that are refused -/

theorem guarded_of_not_open (h : ¬ (s.phase = .building ∧ s.report = none)) (name : String)
    (run : Assembler → Except Fault Assembler) : ∃ r, s.guarded name run = .ok (s.fail r) := by
  by_cases hphase : s.phase = .building
  · have hreport : s.report ≠ none := fun hr => h ⟨hphase, hr⟩
    refine ⟨.several [], ?_⟩
    rw [fail_of_report hreport]
    simp [guarded, hphase, Option.isSome_iff_ne_none.mpr hreport]
  · exact ⟨.single (.wrongPhase name s.phase), by simp [guarded, hphase, failWith]⟩

/-- Outside a unit, or after an error, a statement records a report at most. -/
theorem exec_of_not_open (h : ¬ (s.phase = .building ∧ s.report = none)) (st : Statement) :
    ∃ o r, s.exec st = .ok (o, s.fail r) := by
  have hdone : ∀ {x : Except Fault Assembler}, (∃ r, x = .ok (s.fail r)) →
      ∃ o r, (x >>= fun s => Pure.pure (Outcome.done, s)) = .ok (o, s.fail r) := by
    rintro x ⟨r, rfl⟩
    exact ⟨.done, r, rfl⟩
  have hjump : ∀ w, ∃ r, s.jump w = .ok (s.fail r) := fun w => guarded_of_not_open h w.text _
  cases st with
  | declare t =>
    by_cases ht : t.valid = true
    · by_cases hphase : s.phase = .building
      · have hreport : s.report ≠ none := fun hr => h ⟨hphase, hr⟩
        refine ⟨.declared ⟨t, none⟩, .several [], ?_⟩
        rw [fail_of_report hreport]
        simp [exec, Assembler.declare, ht, hphase, Option.isSome_iff_ne_none.mpr hreport]
      · exact ⟨.declared ⟨t, none⟩, .single (.wrongPhase "var" s.phase),
          by simp [exec, Assembler.declare, ht, hphase, failWith]⟩
    · exact ⟨.declared ⟨t, none⟩, .single .variableType,
        by simp [exec, Assembler.declare, ht, failWith]⟩
  | eval e =>
    by_cases hphase : s.phase = .building
    · have hreport : s.report ≠ none := fun hr => h ⟨hphase, hr⟩
      obtain ⟨r, hr⟩ := Option.ne_none_iff_exists'.mp hreport
      refine ⟨.value (.error r), r, ?_⟩
      rw [fail_of_report hreport]
      simp only [exec, Assembler.eval, hphase, hr, bne_self_eq_false, Bool.false_eq_true, if_false]
      rfl
    · let failed := s.failWith (.wrongPhase "eval" s.phase)
      refine ⟨.value (.error (failed.report.getD (.single (.wrongPhase "eval" failed.phase)))),
        .single (.wrongPhase "eval" s.phase), ?_⟩
      simp only [exec, Assembler.eval, bne_iff_ne, ne_eq, hphase, not_false_eq_true, if_true]
      rfl
  | breakLoop => exact hdone (hjump .breakLoop)
  | continueLoop => exact hdone (hjump .continueLoop)
  | assign | comment | whileLoop | endLoop | breakIf | ifTrue | elseBranch | endIf =>
    exact hdone (guarded_of_not_open h _ _)

theorem Does.report_eq (h : Does s st o s') : s'.report = s.report := by
  cases h <;> rfl

/-- A statement after which there is a report has recorded it and done nothing else. -/
theorem exec_eq_fail (h : s.exec st = .ok (o, s')) (hs' : s'.report ≠ none) : ∃ r, s' = s.fail r := by
  by_cases hopen : s.phase = .building ∧ s.report = none
  · obtain ⟨hphase, hreport⟩ := hopen
    rcases exec_cases hphase hreport h with ⟨r, -, hr⟩ | hdoes
    · exact ⟨r, hr⟩
    · exact absurd (hdoes.report_eq.trans hreport) hs'
  · obtain ⟨o', r, hr⟩ := exec_of_not_open hopen st
    rw [hr] at h
    cases h
    exact ⟨r, rfl⟩

/-- A statement that is refused leaves the draft, so what accepted statements keep is kept. -/
theorem exec_draft {P : Draft → Prop} (h : s.exec st = .ok (o, s'))
    (hdoes : Does s st o s' → P s'.draft) (hs : P s.draft) : P s'.draft := by
  have hfail : ∀ r, P (s.fail r).draft := fun r => by
    rw [fail_eq]
    exact hs
  by_cases hopen : s.phase = .building ∧ s.report = none
  · by_cases hs' : s'.report = none
    · exact hdoes (exec_does hopen.1 hopen.2 h hs')
    · obtain ⟨r, rfl⟩ := exec_eq_fail h hs'
      exact hfail r
  · obtain ⟨o', r, hr⟩ := exec_of_not_open hopen st
    cases hr.symm.trans h
    exact hfail r

/-- What accepted statements keep is kept by statements in order, accepted or not. -/
theorem execAll_draft {P : Draft → Prop} {sts : List Statement} {os : List Outcome}
    (h : s.execAll sts = .ok (os, s'))
    (hdoes : ∀ st ∈ sts, ∀ {s s' : Assembler} {o : Outcome}, Does s st o s' → P s.draft → P s'.draft)
    (hs : P s.draft) : P s'.draft := by
  induction sts generalizing s os with
  | nil =>
    cases h
    exact hs
  | cons st sts ih =>
    obtain ⟨o, s₁, os₁, hexec, hrest, rfl⟩ := execAll_cons_ok.mp h
    obtain ⟨hst, hsts⟩ := List.forall_mem_cons.mp hdoes
    exact ih hrest hsts (exec_draft hexec (fun hdo => hst hdo hs) hs)

theorem exec_frame (h : s.exec st = .ok (o, s')) : s'.unit = s.unit ∧ s'.phase = s.phase := by
  have hfail : ∀ r, (s.fail r).unit = s.unit ∧ (s.fail r).phase = s.phase := by
    intro r
    rw [fail_eq]
    exact ⟨rfl, rfl⟩
  by_cases hs' : s'.report = none
  · by_cases hopen : s.phase = .building ∧ s.report = none
    · have hdoes := exec_does hopen.1 hopen.2 h hs'
      exact ⟨hdoes.unit_eq, hdoes.phase_eq⟩
    · obtain ⟨o', r, hr⟩ := exec_of_not_open hopen st
      cases hr.symm.trans h
      exact hfail r
  · obtain ⟨r, rfl⟩ := exec_eq_fail h hs'
    exact hfail r

/-! ### Calls after a failure, and after the end of a unit -/

theorem finish_eq (hphase : s.phase = .building) (order : Traversal) :
    s.finish order = .ok { (s.closingErrors order).foldl failWith s with phase := .finalized } := by
  simp [finish, hphase]

theorem foldl_failWith_of_report (h : s.report ≠ none) (es : List Error) :
    es.foldl failWith s = s := by
  induction es with
  | nil => rfl
  | cons e es ih =>
    rw [List.foldl_cons, failWith, fail_of_report h]
    exact ih

theorem foldl_failWith_frame (s : Assembler) (es : List Error) :
    ∃ report, es.foldl failWith s = { s with report } := by
  induction es generalizing s with
  | nil => exact ⟨s.report, rfl⟩
  | cons e es ih =>
    obtain ⟨report, hreport⟩ := ih (s.failWith e)
    refine ⟨report, ?_⟩
    rw [List.foldl_cons, hreport, failWith, fail_eq]

/-- The end of a unit closes it and records a report at most. -/
theorem finish_ok {order : Traversal} (h : s.finish order = .ok s') : s.phase = .building ∧ ∃ report,
    (report = none → s.report = none) ∧ s' = { s with phase := .finalized, report } := by
  unfold finish at h
  split_ifs at h with hphase
  cases h
  obtain ⟨report, hreport⟩ := foldl_failWith_frame s (s.closingErrors order)
  refine ⟨by simpa using hphase, report, fun hnone => ?_, by rw [hreport]⟩
  by_contra hs
  rw [foldl_failWith_of_report hs] at hreport
  rw [hreport] at hs
  exact hs hnone

theorem follow_statement_of_report (h : s.report ≠ none) (st : Statement) :
    s.follow (.statement st) = .ok s := by
  obtain ⟨o, r, hr⟩ := exec_of_not_open (fun hopen => h hopen.2) st
  rw [fail_of_report h] at hr
  rw [follow, hr]
  rfl

theorem follow_finish_of_report (h : s.report ≠ none) (order : Traversal) :
    s.follow (.finish order) =
      .ok { s with phase := if s.phase = .building then .finalized else s.phase } := by
  by_cases hphase : s.phase = .building
  · rw [follow, finish_eq hphase, foldl_failWith_of_report h, if_pos hphase]
  · rw [if_neg hphase]
    simp [follow, finish, hphase]

/-- After an error calls change nothing, except that the end of the unit closes it. -/
theorem followAll_of_report : ∀ {s : Assembler}, s.report ≠ none → ∀ calls : List Call,
    s.followAll calls = .ok { s with
      phase := if s.phase = .building ∧ calls.any Call.isFinish then .finalized else s.phase }
  | s, h, [] => by simp [followAll]
  | s, h, .statement st :: calls => by
    rw [followAll, follow_statement_of_report h]
    exact followAll_of_report h calls
  | s, h, .finish order :: calls => by
    rw [followAll, follow_finish_of_report h]
    refine (followAll_of_report (by exact h) calls).trans ?_
    by_cases hphase : s.phase = .building <;> simp [hphase, Call.isFinish]

/-- After the end of a unit a call records a report at most. -/
theorem follow_of_finalized (h : s.phase = .finalized) (c : Call) :
    ∃ report, s.follow c = .ok { s with report } := by
  cases c with
  | statement st =>
    obtain ⟨o, r, hr⟩ := exec_of_not_open (s := s) (by simp [h]) st
    refine ⟨(s.fail r).report, ?_⟩
    rw [← (s.fail_only_report r).1, follow, hr]
    rfl
  | finish order =>
    refine ⟨s.report, ?_⟩
    have hrefused : s.finish order = .error (.notBuilding s.phase) := by simp [finish, h]
    rw [follow, hrefused]

theorem followAll_of_finalized : ∀ {s : Assembler}, s.phase = .finalized → ∀ calls : List Call,
    ∃ report, s.followAll calls = .ok { s with report }
  | s, _, [] => ⟨s.report, rfl⟩
  | s, h, c :: calls => by
    obtain ⟨report, hreport⟩ := follow_of_finalized h c
    obtain ⟨report', hreport'⟩ :=
      followAll_of_finalized (s := { s with report }) h calls
    refine ⟨report', ?_⟩
    rw [followAll, hreport]
    exact hreport'

/-- **Failure is atomic and sticky.** A statement after which there is a report leaves all else as it
was, and keeps an earlier report. From then on no statement and no end of the unit changes anything,
except that the end closes the unit; and after the end of a unit its header and code stay. -/
theorem failure_atomic_sticky (s : Assembler) :
    (∀ st o s', s.exec st = .ok (o, s') → s'.report ≠ none →
      s' = { s with report := s'.report } ∧ ∀ r, s.report = some r → s'.report = some r) ∧
    (s.report ≠ none → ∀ calls, s.followAll calls = .ok { s with
      phase := if s.phase = .building ∧ calls.any Call.isFinish then .finalized else s.phase }) ∧
    (s.phase = .finalized → ∀ calls, ∃ s', s.followAll calls = .ok s' ∧
      s' = { s with report := s'.report } ∧ s'.header = s.header ∧ s'.code = s.code) := by
  refine ⟨fun st o s' h hs' => ?_, followAll_of_report, fun hphase calls => ?_⟩
  · obtain ⟨r, rfl⟩ := exec_eq_fail h hs'
    exact s.fail_only_report r
  · obtain ⟨report, hreport⟩ := followAll_of_finalized hphase calls
    exact ⟨_, hreport, rfl, rfl, rfl⟩

/-- The premises can be met: a loop is closed as if it were a branch, and what follows is of no
effect but that the unit ends. -/
theorem failure_in_open_loop :
    let s : Assembler :=
      { phase := .building, generation := 1, flow := [.loop], draft := { code := #[.word .whileLoop] } }
    let failed : Assembler := { s with report := some (.single .strayEndIf) }
    let ended : Assembler := { failed with phase := .finalized }
    s.exec .endIf = .ok (.done, failed) ∧ failed.draft = s.draft ∧
      failed.followAll [.statement .endLoop, .finish, .statement .whileLoop] = .ok ended ∧
      ∃ s', ended.followAll [.statement .endLoop, .finish] = .ok s' ∧ s'.code = ended.code := by
  intro s failed ended
  have hexec : s.exec .endIf = .ok (.done, failed) := rfl
  obtain ⟨hatomic, -⟩ := failure_atomic_sticky s
  obtain ⟨-, hsticky, -⟩ := failure_atomic_sticky failed
  obtain ⟨-, -, htext⟩ := failure_atomic_sticky ended
  have hsame := (hatomic .endIf .done failed hexec nofun).1
  obtain ⟨s', hs', -, -, hcode⟩ := htext rfl [.statement .endLoop, .finish]
  exact ⟨hexec, by rw [hsame],
    hsticky nofun [.statement .endLoop, .finish, .statement .whileLoop], s', hs', hcode⟩

end Assembler

end ShaderIL
