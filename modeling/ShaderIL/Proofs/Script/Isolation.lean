import ShaderIL.Proofs.Script.Provenance

/-!
# Variables stay in their units

A statement that an assembler accepts has no errors, so its variables are at home in the unit
(`Statement.home_of_errors`); a statement with a variable from elsewhere is refused and changes nothing
else (`Assembler.exec_of_not_home`), and a typed one is reported as an error of state
(`Statement.exists_state_error`). With the provenance of variables this says of any session that a
statement is accepted only over variables that the assembler declared in its current unit:
`Session.variables_isolated`.
-/

namespace ShaderIL

/-! ### Statements with a variable from elsewhere -/

namespace Statement

variable {unit : UnitId} {st : Statement}

/-- A statement reports the errors of its variables, or else something that is none of any variable. -/
theorem errors_of_mem_vars {v : Variable} (hv : v ∈ st.vars) :
    v.errors (some unit) ⊆ st.errors unit ∨
      ∃ cause ∈ st.errors unit, ∀ u : Variable, cause ∉ u.errors (some unit) := by
  have htree {x : Expr} (hx : v ∈ x.vars) (hsubset : x.errors (some unit) ⊆ st.errors unit) :
      v.errors (some unit) ⊆ st.errors unit ∨
        ∃ cause ∈ st.errors unit, ∀ u : Variable, cause ∉ u.errors (some unit) := by
    refine (Expr.errors_of_mem_vars hx).imp (fun h => List.Subset.trans h hsubset) ?_
    rintro ⟨cause, hcause, hnone⟩
    exact ⟨cause, hsubset hcause, hnone⟩
  obtain ⟨x, hx, hvx⟩ := List.mem_flatMap.mp hv
  cases st with
  | eval e | breakIf e | ifTrue e =>
    rw [List.mem_singleton.mp hx] at hvx
    exact htree hvx (List.Subset.refl _)
  | assign dst e =>
    cases dst with
    | none =>
      refine .inr ⟨.absentTarget, List.mem_singleton_self _, fun u => ?_⟩
      unfold Variable.errors
      split_ifs <;> cases u.home <;> simp
    | some dst =>
      refine htree hvx ?_
      have hboth : dst.toExpr.errors (some unit) ++ e.errors (some unit) ⊆
          (assign (some dst) e).errors unit := by
        intro cause hcause
        have hsome := List.isEmpty_eq_false_iff.mpr (List.ne_nil_of_mem hcause)
        rw [errors, LValue.assignErrors, hsome]
        exact hcause
      simp only [exprs, List.mem_cons, List.not_mem_nil, or_false] at hx
      rcases hx with rfl | rfl
      · exact List.Subset.trans (List.subset_append_left _ _) hboth
      · exact List.Subset.trans (List.subset_append_right _ _) hboth
  | _ => cases hx

/-- The variables of a statement without errors are at home in the unit. -/
theorem home_of_errors (h : st.errors unit = []) : ∀ v ∈ st.vars, ∃ r, v.home = some ⟨unit, r⟩ := by
  intro v hv
  rcases errors_of_mem_vars hv with hsubset | ⟨cause, hcause, -⟩
  · exact (Variable.errors_eq_nil (List.subset_nil.mp (h ▸ hsubset))).2
  · exact absurd (h ▸ hcause) List.not_mem_nil

/-- If nothing but variables is wrong with a statement, a typed variable from elsewhere is reported as an
error of state. -/
theorem exists_state_error {v : Variable} (hv : v ∈ st.vars) (hhome : ∀ r, v.home ≠ some ⟨unit, r⟩)
    (hvalid : v.declared.valid = true)
    (hvars : ∀ e ∈ st.errors unit, ∃ u ∈ st.vars, e ∈ u.errors (some unit)) :
    ∃ e ∈ st.errors unit, e.kind = .state := by
  obtain ⟨e, herror, hkind⟩ := Variable.errors_of_not_home hvalid hhome
  rcases errors_of_mem_vars hv with hsubset | ⟨cause, hcause, hnone⟩
  · exact ⟨e, hsubset (herror ▸ List.mem_singleton_self e), hkind⟩
  · obtain ⟨u, -, hu⟩ := hvars cause hcause
    exact absurd hu (hnone u)

end Statement

namespace Assembler

variable {s s' : Assembler} {st : Statement} {o : Outcome} {v : Variable}

theorem Does.errors_eq_nil (h : Does s st o s') : st.errors s.unit = [] := by
  cases h with
  | declare | comment => rfl
  | eval herr | assign herr => exact herr
  | word hw =>
    cases st with
    | whileLoop | endLoop | breakLoop | continueLoop | elseBranch | endIf => rfl
    | _ => cases hw
  | test ht herr =>
    cases st with
    | breakIf | ifTrue =>
      cases ht
      exact herr
    | _ => cases ht

theorem condition_of_errors {test : FlowTest} {cond : Expr} (h : cond.errors (some s.unit) ≠ []) :
    s.condition test cond = .ok (none, s.failAll (cond.errors (some s.unit))) := by
  simp [condition, h]

theorem exec_of_errors (hphase : s.phase = .building) (hreport : s.report = none)
    (h : st.errors s.unit ≠ []) : ∃ o s', s.exec st = .ok (o, s') := by
  cases st with
  | eval e =>
    have herr : e.errors (some s.unit) ≠ [] := h
    refine ⟨.value (.error (.several (e.errors (some s.unit)))), s.failAll (e.errors (some s.unit)), ?_⟩
    simp only [exec, Assembler.eval, hphase, hreport, bne_self_eq_false, Bool.false_eq_true, if_false,
      List.isEmpty_iff, herr]
    rfl
  | assign dst e =>
    rw [exec, Assembler.assign, guarded_eq hphase hreport]
    cases dst with
    | none => exact ⟨_, _, rfl⟩
    | some dst =>
      have herr : (LValue.assignErrors s.unit (some dst) e).isEmpty = false :=
        Bool.eq_false_iff.mpr (mt List.isEmpty_iff.mp h)
      simp only [herr, Bool.false_eq_true, if_false]
      exact ⟨_, _, rfl⟩
  | breakIf cond =>
    rw [exec, breakIf, guarded_eq hphase hreport, condition_of_errors h]
    split <;> exact ⟨_, _, rfl⟩
  | ifTrue cond =>
    rw [exec, ifTrue, guarded_eq hphase hreport, condition_of_errors h]
    exact ⟨_, _, rfl⟩
  | _ => exact absurd rfl h

/-- A statement that has errors and a place is refused with its errors. -/
theorem Refuses.report_eq {r : Report} (h : Refuses s st r) (hplace : s.HasPlaceFor st)
    (herr : st.errors s.unit ≠ []) : r = .several (st.errors s.unit) := by
  cases h with
  | variableType => exact absurd rfl herr
  | invalid => rfl
  | conditionType _ ht hclean =>
    cases st with
    | breakIf | ifTrue =>
      cases ht
      exact absurd hclean herr
    | _ => cases ht
  | misplaced hk hnext => exact absurd hnext (hplace _ hk)

/-- A statement that mentions a variable from elsewhere is refused. If the unit takes statements and the
keyword has a place, its errors are reported. -/
theorem exec_of_not_home (hv : v ∈ st.vars) (hhome : ∀ r, v.home ≠ some ⟨s.unit, r⟩) :
    ∃ o r, s.exec st = .ok (o, s.fail r) ∧
      (s.phase = .building → s.report = none → s.HasPlaceFor st → r = .several (st.errors s.unit)) := by
  by_cases hopen : s.phase = .building ∧ s.report = none
  · obtain ⟨hphase, hreport⟩ := hopen
    have herr : st.errors s.unit ≠ [] := by
      intro hclean
      obtain ⟨r, hr⟩ := Statement.home_of_errors hclean v hv
      exact hhome r hr
    obtain ⟨o, s', hexec⟩ := exec_of_errors hphase hreport herr
    rcases exec_cases hphase hreport hexec with ⟨r, hrefuses, rfl⟩ | hdoes
    · exact ⟨o, r, hexec, fun _ _ hplace => hrefuses.report_eq hplace herr⟩
    · exact absurd hdoes.errors_eq_nil herr
  · obtain ⟨o, r, hexec⟩ := exec_of_not_open hopen st
    exact ⟨o, r, hexec, fun hphase hreport => absurd ⟨hphase, hreport⟩ hopen⟩

/-- A statement after which there is no report was accepted over variables of the unit. -/
theorem exec_home (h : s.exec st = .ok (o, s')) (hs' : s'.report = none) :
    ∀ v ∈ st.vars, ∃ r, v.home = some ⟨s.unit, r⟩ := by
  by_cases hopen : s.phase = .building ∧ s.report = none
  · exact Statement.home_of_errors (exec_does hopen.1 hopen.2 h hs').errors_eq_nil
  · obtain ⟨o', r, hr⟩ := exec_of_not_open hopen st
    cases hr.symm.trans h
    rw [fail_eq] at hs'
    cases hs'

end Assembler

/-! ### Sessions -/

namespace Script

variable {S : Session} {events : List Event} {i : Nat} {a : Assembler} {action : Action}
  {st : Statement}

/-- **Variables are isolated in their units.** In any session, if a statement on an assembler is
accepted, every variable it mentions was given a register by that assembler in its current unit. A
statement that mentions any other variable, one without a register, of another assembler or of an
earlier unit, is refused: there is a report, and nothing else has changed. The report lists an error of
state if the variable was declared with a valid type, the unit is open and without errors, a flow
keyword can stand there, and nothing is wrong with the statement but its variables. -/
theorem Session.variables_isolated (h : Trace {} events S) (ha : S.assemblers[i]? = some a)
    (hst : S.statement? action = .ok (some st)) :
    (∀ reply a' S', S.step (.act i action) = .ok (⟨reply, some a'⟩, S') → a'.report = none →
      ∀ v ∈ st.vars, LivesIn i v events) ∧
    (∀ v ∈ st.vars, LivesIn i v events ∨ Astray i v events) ∧
    ∀ v ∈ st.vars, Astray i v events →
      ¬ LivesIn i v events ∧
      ∃ reply a' S', S.step (.act i action) = .ok (⟨reply, some a'⟩, S') ∧
        S'.assemblers[i]? = some a' ∧ a'.report ≠ none ∧ a' = { a with report := a'.report } ∧
        (a.phase = .building → a.report = none → a.HasPlaceFor st → v.declared.valid = true →
          (∀ e ∈ st.errors a.unit, ∃ u ∈ st.vars, e ∈ u.errors (some a.unit)) →
          ∃ es, a'.report = some (.several es) ∧ ∃ e ∈ es, e.kind = .state) := by
  have hknows := knows_of_statement hst
  refine ⟨fun reply a' S' hstep hreport v hv => ?_, fun v hv => livesIn_or_astray h (hknows v hv),
    fun v hv hastray => ⟨fun hlives => ?_, ?_⟩⟩
  · rw [act_of_statement ha hst] at hstep
    cases hexec : a.exec st with
    | error f =>
      rw [hexec] at hstep
      cases hstep
    | ok r =>
      rw [hexec] at hstep
      cases hstep
      exact (livesIn_iff h ha (hknows v hv)).mpr (Assembler.exec_home hexec hreport v hv)
  · obtain ⟨r, hhome⟩ := hlives.home h ha
    exact hastray.not_home h ha r hhome
  · have hhome := hastray.not_home h ha
    obtain ⟨o, r, hexec, hreported⟩ := Assembler.exec_of_not_home hv hhome
    refine ⟨replyOf o, a.fail r, { S.withAssembler i (a.fail r) with env := keepVariable S.env o }, ?_,
      withAssembler_get ha _, ?_, (a.fail_only_report r).1, ?_⟩
    · rw [act_of_statement ha hst, hexec]
      rfl
    · rw [Assembler.fail_eq]
      exact nofun
    · intro hphase hreport hplace hvalid hvars
      refine ⟨st.errors a.unit, ?_, Statement.exists_state_error hv hhome hvalid hvars⟩
      rw [hreported hphase hreport hplace]
      exact Assembler.fail_report hreport _

/-- The premises can be met: a variable is evaluated in its unit, and it is refused in the next one. -/
theorem Session.variable_used_then_stale :
    let first : Assembler := { phase := .building, generation := 1 }
    let declared : Assembler := { first with draft := { next := 1 } }
    let closed : Assembler := { declared with phase := .finalized }
    let second : Assembler := { phase := .building, generation := 2 }
    let v : Variable := ⟨.float1, some ⟨⟨0, 1⟩, 0⟩⟩
    let S₁ : Session := { assemblers := #[{}] }
    let S₂ : Session := { assemblers := #[first] }
    let S₃ : Session := { assemblers := #[declared], env := { vars := #[v] } }
    let S₄ : Session := { assemblers := #[closed], env := { vars := #[v] } }
    let S₅ : Session := { assemblers := #[second], env := { vars := #[v] } }
    let unit : List Event :=
      [⟨{}, .create .pixel {} {}, ⟨.nothing, some {}⟩, S₁⟩,
       ⟨S₁, .act 0 .begin, ⟨.verdict none, some first⟩, S₂⟩,
       ⟨S₂, .act 0 (.declare .float1), ⟨.variable v, some declared⟩, S₃⟩]
    let closing : Event := ⟨S₃, .act 0 .finish, ⟨.verdict none, some closed⟩, S₄⟩
    let opening : Event := ⟨S₄, .act 0 .begin, ⟨.verdict none, some second⟩, S₅⟩
    let events := (unit ++ [closing]) ++ [opening]
    Trace {} unit S₃ ∧ LivesIn 0 v unit ∧ Trace {} events S₅ ∧ Astray 0 v events ∧
    ∃ reply a' S' es, S₅.step (.act 0 (.eval (.var 0))) = .ok (⟨reply, some a'⟩, S') ∧
      a'.draft = second.draft ∧ a'.report = some (.several es) ∧ ∃ e ∈ es, e.kind = .state := by
  intro first declared closed second v S₁ S₂ S₃ S₄ S₅ unit closing opening events
  have hunit : Trace {} unit S₃ := .cons rfl rfl (.cons rfl rfl (.cons rfl rfl .nil))
  have hnext : Trace {} events S₅ :=
    .cons rfl rfl (.cons rfl rfl (.cons rfl rfl (.cons rfl rfl (.cons rfl rfl .nil))))
  have hst : S₃.statement? (.eval (.var 0)) = .ok (some (.eval (.var v))) := rfl
  have hst' : S₅.statement? (.eval (.var 0)) = .ok (some (.eval (.var v))) := rfl
  have hv : v ∈ (Statement.eval (.var v)).vars := List.mem_singleton_self v
  have hdeclared : v ∈ declaredOn 0 (unit ++ [closing]) := List.mem_singleton_self v
  have hstale : Astray 0 v events := .stale hdeclared rfl
  obtain ⟨haccepted, -⟩ := variables_isolated hunit (i := 0) (a := declared) rfl hst
  obtain ⟨-, -, hrefused⟩ := variables_isolated hnext (i := 0) (a := second) rfl hst'
  obtain ⟨-, reply, a', S', hstep, -, -, hsame, hstate⟩ := hrefused v hv hstale
  obtain ⟨es, hreport, hes⟩ := hstate rfl rfl nofun rfl fun e he => ⟨v, hv, he⟩
  exact ⟨hunit, haccepted _ declared S₃ rfl rfl v hv, hnext, hstale, reply, a', S', es, hstep,
    by rw [hsame], hreport, hes⟩

/-- A variable that was declared without a valid type is reported for its type wherever it is used: on
another assembler, where nothing else is wrong, no error of state is listed. -/
theorem Session.untyped_variable_reports_type :
    let first : Assembler := { phase := .building, generation := 1 }
    let failed : Assembler := { first with report := some (.single .variableType) }
    let second : Assembler := { id := 1, phase := .building, generation := 1 }
    let v : Variable := ⟨.invalid, none⟩
    let S₁ : Session := { assemblers := #[{}] }
    let S₂ : Session := { assemblers := #[{}, { id := 1 }] }
    let S₃ : Session := { assemblers := #[first, { id := 1 }] }
    let S₄ : Session := { assemblers := #[first, second] }
    let S₅ : Session := { assemblers := #[failed, second], env := { vars := #[v] } }
    let events : List Event :=
      [⟨{}, .create .pixel {} {}, ⟨.nothing, some {}⟩, S₁⟩,
       ⟨S₁, .create .pixel {} {}, ⟨.nothing, some { id := 1 }⟩, S₂⟩,
       ⟨S₂, .act 0 .begin, ⟨.verdict none, some first⟩, S₃⟩,
       ⟨S₃, .act 1 .begin, ⟨.verdict none, some second⟩, S₄⟩,
       ⟨S₄, .act 0 (.declare .invalid), ⟨.variable v, some failed⟩, S₅⟩]
    Trace {} events S₅ ∧ Astray 1 v events ∧
    ∃ reply a' S', S₅.step (.act 1 (.eval (.var 0))) = .ok (⟨reply, some a'⟩, S') ∧
      a'.report = some (.several [.variableType]) ∧ Error.variableType.kind = .typeMismatch := by
  intro first failed second v S₁ S₂ S₃ S₄ S₅ events
  have htrace : Trace {} events S₅ :=
    .cons rfl rfl (.cons rfl rfl (.cons rfl rfl (.cons rfl rfl (.cons rfl rfl .nil))))
  exact ⟨htrace, .homeless rfl, _, _, _, rfl, rfl, rfl⟩

end Script

end ShaderIL
