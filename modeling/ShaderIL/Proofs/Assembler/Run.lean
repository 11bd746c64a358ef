import ShaderIL.Assembler.Statement
import ShaderIL.Proofs.Expr.Tree
import ShaderIL.Proofs.Flow.Grammar

/-!
# Runs of accepted statements

`Assembler.Does` says once what a statement does that an open unit accepts: it declares a variable,
emits a tree, stores a value, or writes a line of its own, after a condition if it has one.
`Assembler.Refuses` says for which reasons a statement is refused, and with which report; there is no
third way (`exec_cases`). `Run start steps s` is a sequence of accepted statements that leads from
`start` to `s`; a variable of the unit that a statement mentions is one that an earlier step declared.
Whatever a run does, the draft only grows, and the code of a unit is the lines of its steps one after
the other (`Run.code_eq`).
-/

namespace ShaderIL

/-! ### Emission only adds to a draft -/

/-- Whenever it succeeds, the emission goes on from the draft it was given. -/
def Emit.Growing {α : Type} (m : Emit α) : Prop :=
  ∀ d a d', m d = .ok (a, d') → ∃ is, d.Grows d' is

namespace Emit.Growing

variable {α β : Type}

theorem pure (a : α) : Growing (Pure.pure a : Emit α) := by
  intro d b d' h
  cases h
  exact ⟨[], .refl d⟩

theorem bind {x : Emit α} {f : α → Emit β} (hx : Growing x) (hf : ∀ a, Growing (f a)) :
    Growing (x >>= f) := by
  intro d b d' h
  obtain ⟨a, d1, h1, h2⟩ := bind_ok_iff.mp h
  obtain ⟨is, his⟩ := hx d a d1 h1
  obtain ⟨js, hjs⟩ := hf a d1 b d' h2
  exact ⟨is ++ js, his.trans hjs⟩

theorem throw (f : Fault) : Growing (MonadExcept.throw f : Emit α) :=
  fun _ _ _ h => absurd h throw_ne_ok

theorem lift (x : Except Fault α) : Growing (liftM x : Emit α) := by
  intro d a d' h
  obtain ⟨-, rfl⟩ := lift_ok_iff.mp h
  exact ⟨[], .refl _⟩

theorem orFault (x : Except Error α) : Growing (ShaderIL.orFault x) := by
  cases x with
  | error e => exact throw _
  | ok a => exact pure a

theorem note {m : Emit α} {f : Draft → Draft} {g : Draft → α} (hm : ∀ d, m d = .ok (g d, f d))
    (hnext : ∀ d, (f d).next = d.next) (hcode : ∀ d, (f d).code = d.code)
    (hcounted : ∀ d, (f d).instructions = d.instructions)
    (hliterals : ∀ d : Draft, d.literals.Grows (f d).literals) : Growing m := by
  intro d a d' h
  rw [hm] at h
  cases h
  exact ⟨[], ⟨(hnext d).ge, by simp [hcode], by simp [hcounted], hliterals d⟩⟩

theorem intern (bits : Quad) : Growing (Draft.intern bits) :=
  note (fun _ => rfl) (fun _ => rfl) (fun _ => rfl) (fun _ => rfl) fun d => .add d.literals bits

theorem useInput (slot : Int) (t : ValueType) : Growing (Draft.useInput slot t) :=
  note (fun _ => rfl) (fun _ => rfl) (fun _ => rfl) (fun _ => rfl) fun _ => .refl _

theorem useBuffer (slot size : Int) : Growing (Draft.useBuffer slot size) :=
  note (fun _ => rfl) (fun _ => rfl) (fun _ => rfl) (fun _ => rfl) fun _ => .refl _

theorem useGlobal : Growing Draft.useGlobal :=
  note (fun _ => rfl) (fun _ => rfl) (fun _ => rfl) (fun _ => rfl) fun _ => .refl _

theorem usePosition : Growing Draft.usePosition :=
  note (fun _ => rfl) (fun _ => rfl) (fun _ => rfl) (fun _ => rfl) fun _ => .refl _

theorem alloc (t : ValueType) : Growing (Draft.alloc t) := by
  intro d a d' h
  cases h
  exact ⟨[], .taken d 1⟩

theorem allocMany (t : ValueType) (n : Nat) : Growing (Draft.allocMany t n) := by
  intro d a d' h
  rw [Draft.allocMany_eq] at h
  cases h
  exact ⟨[], .taken d n⟩

theorem writeAll (is : List Instruction) : Growing (Draft.writeAll is) := by
  intro d a d' h
  cases h
  exact ⟨is, .appended d is⟩

theorem emitInto (f : Overload) (dst : Operand) (args : List Operand) :
    Growing (f.emitInto dst args) :=
  bind (allocMany _ _) fun _ => bind (lift _) fun is => writeAll is

theorem overload (f : Option Overload) (args : List Operand) :
    Growing (Overload.emitFresh f args) := by
  cases f with
  | none => exact throw _
  | some f => exact bind (alloc _) fun dst => bind (emitInto f dst args) fun _ => pure dst

theorem fresh (m : Mnemonic) (t : ValueType) (source : Operand) :
    Growing (emitFresh m t source) :=
  bind (alloc t) fun _ => bind (writeAll _) fun _ => pure _

theorem operand (v : Variable) : Growing v.operand := by
  unfold Variable.operand
  split
  · exact pure _
  · exact throw _

theorem viewOperand (v : Variable) (mask : String) : Growing (v.viewOperand mask) :=
  bind (orFault _) fun _ => bind (operand v) fun _ => lift _

theorem position (target : Target) (t : ValueType) : Growing (emitPosition target t) := by
  unfold emitPosition
  split_ifs
  · exact bind (lift _) fun _ => fresh _ _ _
  · exact bind (lift _) fun _ => pure _
  · exact bind usePosition fun _ => bind (lift _) fun _ => bind (fresh _ _ _) fun _ => pure _
  · exact bind usePosition fun _ => bind (lift _) fun _ => bind (fresh _ _ _) fun _ => fresh _ _ _

theorem expr (target : Target) (e : Expr) : Growing (e.emit target) := by
  induction e with
  | absent => exact throw _
  | unselected x cause ih => exact throw _
  | unary op x ih => exact bind ih fun _ => overload _ _
  | convert op t x ih => exact bind ih fun _ => overload _ _
  | binary op x y ihx ihy => exact bind ihx fun _ => bind ihy fun _ => overload _ _
  | ternary op x y z ihx ihy ihz =>
    exact bind ihx fun _ => bind ihy fun _ => bind ihz fun _ => overload _ _
  | select x p ih => exact bind ih fun _ => lift _
  | literal l => exact bind (intern _) fun _ => pure _
  | external t text => exact orFault _
  | field f => exact bind (useBuffer _ _) fun _ => orFault _
  | var v => exact operand v
  | view v mask => exact viewOperand v mask
  | sample i c ih => exact bind ih fun _ => bind (useInput _ _) fun _ => fresh _ _ _
  | element t b offset ih => exact bind useGlobal fun _ => bind ih fun _ => fresh _ _ _
  | elementAt t offset => exact bind useGlobal fun _ => fresh _ _ _
  | position t => exact position target t

theorem exprs (target : Target) : ∀ es : List Expr, Growing (Expr.emitAll target es)
  | [] => pure _
  | e :: es => bind (expr target e) fun _ => bind (exprs target es) fun _ => pure _

theorem move (dst value : Operand) : Growing (emitMove dst value) := by
  unfold emitMove
  split_ifs
  · exact bind (lift _) fun _ => writeAll _
  · exact bind (pure _) fun _ => writeAll _

theorem into (target : Target) (dst : Operand) (direct : Option Overload) (e : Expr) :
    Growing (emitTo target dst direct e) := by
  cases direct with
  | none => exact bind (expr target e) fun _ => move _ _
  | some f => exact bind (exprs target _) fun _ => emitInto f dst _

theorem store (target : Target) (e : Expr) (dst : LValue) : Growing (dst.store target e) := by
  cases dst with
  | var v => exact bind (operand v) fun _ => into target _ _ e
  | view v mask =>
    exact bind (orFault _) fun _ => bind (viewOperand v mask) fun _ => into target _ _ e
  | element t a =>
    refine bind (expr target e) fun _ => bind useGlobal fun _ => ?_
    cases a.base with
    | none => exact bind (pure _) fun _ => move _ _
    | some b => exact bind (expr target b) fun _ => bind (pure _) fun _ => move _ _

end Emit.Growing

/-! ### What an accepted statement does -/

namespace Statement

/-- The flow word a statement writes. -/
def word? : Statement → Option FlowWord
  | whileLoop => some .whileLoop
  | endLoop => some .endLoop
  | breakLoop => some .breakLoop
  | continueLoop => some .continueLoop
  | elseBranch => some .elseBranch
  | endIf => some .endIf
  | _ => none

/-- The test a statement writes and its condition. -/
def test? : Statement → Option (FlowTest × Expr)
  | breakIf cond => some (.breakTrue, cond)
  | ifTrue cond => some (.ifTrue, cond)
  | _ => none

/-- The flow keyword a statement writes. -/
def keyword? (st : Statement) : Option Keyword :=
  match st.word?, st.test? with
  | some w, _ => some (.word w)
  | none, some (t, _) => some (.test t)
  | none, none => none

/-- The errors of the trees of a statement in a unit. -/
def errors (unit : UnitId) : Statement → List Error
  | eval e | breakIf e | ifTrue e => e.errors (some unit)
  | assign dst e => LValue.assignErrors unit dst e
  | _ => []

/-- The trees of a statement; a destination is one too. -/
def exprs : Statement → List Expr
  | eval e | breakIf e | ifTrue e => [e]
  | assign (some dst) e => [dst.toExpr, e]
  | assign none e => [e]
  | _ => []

/-- The variables a statement mentions. -/
def vars (st : Statement) : List Variable := st.exprs.flatMap Expr.vars

theorem exprs_of_word {st : Statement} {w : FlowWord} (h : st.word? = some w) : st.exprs = [] := by
  cases st with
  | whileLoop | endLoop | breakLoop | continueLoop | elseBranch | endIf => rfl
  | _ => cases h

theorem exprs_of_test {st : Statement} {t : FlowTest} {cond : Expr}
    (h : st.test? = some (t, cond)) : st.exprs = [cond] := by
  cases st with
  | breakIf | ifTrue =>
    cases h
    rfl
  | _ => cases h

end Statement

/-- An assignment is accepted if both sides are sound and the types agree. -/
theorem LValue.assignErrors_eq_nil {unit : UnitId} {dst : LValue} {e : Expr}
    (h : assignErrors unit (some dst) e = []) : dst.toExpr.errors (some unit) = [] ∧
      e.errors (some unit) = [] ∧ accepts dst.type e.type = true := by
  simp only [assignErrors] at h
  split_ifs at h with herr hacc
  · simp [h] at herr
  · simp only [Bool.not_eq_true', Bool.not_eq_false, List.isEmpty_iff,
      List.append_eq_nil_iff] at herr
    exact ⟨herr.1, herr.2, hacc⟩

namespace Assembler

/-- What a statement does that is accepted. -/
inductive Does (s : Assembler) : Statement → Outcome → Assembler → Prop
  | declare {t} (ht : t.valid = true) :
    Does s (.declare t) (.declared ⟨t, some ⟨s.unit, s.draft.next⟩⟩)
      { s with draft := s.draft.taken 1 }
  | eval {e o d} (herr : e.errors (some s.unit) = [])
      (hemit : e.emit s.target s.draft = .ok (o, d)) :
    Does s (.eval e) (.value (.ok o)) { s with draft := d }
  | assign {dst e d} (herr : LValue.assignErrors s.unit (some dst) e = [])
      (hstore : dst.store s.target e s.draft = .ok ((), d)) :
    Does s (.assign (some dst) e) .done { s with draft := d }
  | comment {text} : Does s (.comment text) .done { s with draft := s.draft.remarked text }
  | word {st w flow} (hw : st.word? = some w)
      (hflow : (Keyword.word w).next s.flow = some flow) :
    Does s st .done ({ s with flow }.writeLine (.word w))
  | test {st t cond o d flow} (ht : st.test? = some (t, cond))
      (herr : cond.errors (some s.unit) = []) (htype : cond.type = .bool1)
      (hemit : cond.emit s.target s.draft = .ok (o, d))
      (hflow : (Keyword.test t).next s.flow = some flow) :
    Does s st .done ({ s with draft := d, flow }.writeLine (.test t o.source))

/-- The flow keyword of the statement, if it has one, can stand where the assembler is. -/
def HasPlaceFor (s : Assembler) (st : Statement) : Prop :=
  ∀ k, st.keyword? = some k → k.next s.flow ≠ none

/-- Why a statement is refused in an open unit without errors, and the report of it. Whether a keyword
can stand there is looked at before its condition. -/
inductive Refuses (s : Assembler) : Statement → Report → Prop
  | variableType {t} (ht : t.valid = false) : Refuses s (.declare t) (.single .variableType)
  | invalid {st} (hplace : s.HasPlaceFor st) (herr : st.errors s.unit ≠ []) :
    Refuses s st (.several (st.errors s.unit))
  | conditionType {st t cond} (hplace : s.HasPlaceFor st) (ht : st.test? = some (t, cond))
      (herr : cond.errors (some s.unit) = []) (htype : cond.type ≠ .bool1) :
    Refuses s st (.single (.conditionType t.text cond.type))
  | misplaced {st k e} (hk : st.keyword? = some k) (hnext : k.next s.flow = none)
      (he : e.kind = .flowControl) : Refuses s st (.single e)

variable {s s' : Assembler} {st : Statement} {o : Outcome}

theorem emitting_ok {α : Type} {m : Emit α} {a : α} {d : Draft} (h : m s.draft = .ok (a, d)) :
    s.emitting m = .ok (a, { s with draft := d }) := by
  have hrun : m.run s.draft = .ok (a, d) := h
  simp only [emitting, hrun]

theorem emitting_ok_iff {α : Type} {m : Emit α} {r : α × Assembler} :
    s.emitting m = .ok r ↔ ∃ d, m s.draft = .ok (r.1, d) ∧ r.2 = { s with draft := d } := by
  constructor
  · intro h
    cases hm : m s.draft with
    | error f =>
      have hrun : m.run s.draft = .error f := hm
      simp [emitting, hrun] at h
    | ok p =>
      obtain ⟨a, d⟩ := p
      rw [emitting_ok hm] at h
      cases h
      exact ⟨d, rfl, rfl⟩
  · rintro ⟨d, hm, hr⟩
    rw [emitting_ok hm, ← hr]

theorem fail_report (h : s.report = none) (r : Report) : (s.fail r).report = some r := by
  simp [fail, h]

theorem guarded_eq (hphase : s.phase = .building) (hreport : s.report = none) (name : String)
    (run : Assembler → Except Fault Assembler) : s.guarded name run = run s := by
  simp [guarded, hphase, hreport]

theorem declare_eq (hphase : s.phase = .building) (hreport : s.report = none) {t : ValueType}
    (ht : t.valid = true) : s.declare t =
      (⟨t, some ⟨s.unit, s.draft.next⟩⟩, { s with draft := s.draft.taken 1 }) := by
  simp [Assembler.declare, ht, hphase, hreport, Draft.taken]

theorem exec_done {x : Except Fault Assembler}
    (h : (x >>= fun s => Pure.pure (Outcome.done, s)) = .ok (o, s')) : o = .done ∧ x = .ok s' := by
  obtain ⟨a, ha, h⟩ := except_bind_eq_ok.mp h
  cases h
  exact ⟨rfl, ha⟩

/-- A condition that was accepted is a boolean without errors, and it was emitted. -/
theorem condition_some {test : FlowTest} {cond : Expr} {c : Operand}
    (h : s.condition test cond = .ok (some c, s')) :
    cond.errors (some s.unit) = [] ∧ cond.type = .bool1 ∧
      ∃ d, cond.emit s.target s.draft = .ok (c, d) ∧ s' = { s with draft := d } := by
  simp only [condition] at h
  split_ifs at h with herr htype
  · cases h
  · cases h
  · obtain ⟨⟨c', s1⟩, hemit, h⟩ := except_bind_eq_ok.mp h
    cases h
    obtain ⟨d, hd, hs⟩ := emitting_ok_iff.mp hemit
    exact ⟨by simpa using herr, by simpa using htype, d, hd, hs⟩

theorem condition_none {test : FlowTest} {cond : Expr} (hplace : s.HasPlaceFor st)
    (ht : st.test? = some (test, cond))
    (h : s.condition test cond = .ok (none, s')) : ∃ r, Refuses s st r ∧ s' = s.fail r := by
  simp only [condition] at h
  split_ifs at h with herr htype
  · cases h
    have herrors : st.errors s.unit = cond.errors (some s.unit) := by
      cases st with
      | breakIf | ifTrue =>
        cases ht
        rfl
      | _ => cases ht
    refine ⟨_, .invalid hplace ?_, by rw [herrors]; rfl⟩
    rw [herrors]
    simpa using herr
  · cases h
    exact ⟨_, .conditionType hplace ht (by simpa using herr) (by simpa using htype), rfl⟩
  · obtain ⟨_, -, h⟩ := except_bind_eq_ok.mp h
    cases h

theorem next_jump {k : Keyword} (hj : k.isJump = true) :
    k.next s.flow = if s.inLoop then some s.flow else none :=
  Keyword.next_of_isJump hj s.flow

theorem jump_cases {w : FlowWord} (hphase : s.phase = .building) (hreport : s.report = none)
    (hw : st.word? = some w) (hj : (Keyword.word w).isJump = true) (h : s.jump w = .ok s') :
    (∃ r, Refuses s st r ∧ s' = s.fail r) ∨ Does s st .done s' := by
  have hnext := next_jump (s := s) hj
  rw [jump, guarded_eq hphase hreport] at h
  split_ifs at h with hloop
  · cases h
    have hdoes : Does s st .done ({ s with flow := s.flow }.writeLine (.word w)) :=
      .word hw (by rw [hnext, if_pos hloop])
    exact .inr hdoes
  · cases h
    refine .inl ⟨_, .misplaced (k := .word w) ?_ (by rw [hnext, if_neg hloop]) rfl, rfl⟩
    simp [Statement.keyword?, hw]

/-- Inversion of a statement in an open unit without errors: it was refused or accepted. -/
theorem exec_cases (hphase : s.phase = .building) (hreport : s.report = none)
    (h : s.exec st = .ok (o, s')) : (∃ r, Refuses s st r ∧ s' = s.fail r) ∨ Does s st o s' := by
  cases st with
  | declare t =>
    by_cases ht : t.valid = true
    · rw [exec, declare_eq hphase hreport ht] at h
      cases h
      exact .inr (.declare ht)
    · simp only [exec, Assembler.declare, ht, Bool.not_false, if_true] at h
      cases h
      exact .inl ⟨_, .variableType (by simpa using ht), rfl⟩
  | eval e =>
    obtain ⟨⟨r, s1⟩, heval, h⟩ := except_bind_eq_ok.mp h
    cases h
    simp only [Assembler.eval, hphase, hreport, bne_self_eq_false, Bool.false_eq_true,
      if_false] at heval
    split_ifs at heval with herr
    · obtain ⟨⟨c, s2⟩, hemit, heval⟩ := except_bind_eq_ok.mp heval
      cases heval
      obtain ⟨d, hd, hs⟩ := emitting_ok_iff.mp hemit
      simp only at hs
      subst hs
      exact .inr (.eval (by simpa using herr) hd)
    · cases heval
      exact .inl ⟨_, .invalid nofun (mt List.isEmpty_iff.mpr herr), rfl⟩
  | assign dst e =>
    obtain ⟨rfl, hst⟩ := exec_done (x := s.assign dst e) h
    rw [Assembler.assign, guarded_eq hphase hreport] at hst
    cases dst with
    | none =>
      cases hst
      exact .inl ⟨_, .invalid nofun (List.cons_ne_nil _ _), rfl⟩
    | some dst =>
      simp only at hst
      split_ifs at hst with herr
      · obtain ⟨⟨u, s1⟩, hemit, hst⟩ := except_bind_eq_ok.mp hst
        cases hst
        obtain ⟨d, hd, hs⟩ := emitting_ok_iff.mp hemit
        simp only at hs
        subst hs
        exact .inr (.assign (by simpa using herr) hd)
      · cases hst
        exact .inl ⟨_, .invalid nofun (mt List.isEmpty_iff.mpr herr), rfl⟩
  | comment text =>
    obtain ⟨rfl, hst⟩ := exec_done (x := s.comment text) h
    rw [Assembler.comment, guarded_eq hphase hreport] at hst
    cases hst
    exact .inr .comment
  | whileLoop =>
    obtain ⟨rfl, hst⟩ := exec_done (x := s.whileLoop) h
    rw [Assembler.whileLoop, guarded_eq hphase hreport] at hst
    cases hst
    exact .inr (.word rfl rfl)
  | endLoop =>
    obtain ⟨rfl, hst⟩ := exec_done (x := s.endLoop) h
    rw [Assembler.endLoop, guarded_eq hphase hreport] at hst
    split at hst
    · rename_i hflow
      cases hst
      exact .inr (.word rfl (by rw [hflow]; rfl))
    · rename_i hflow
      cases hst
      refine .inl ⟨_, .misplaced (k := .word .endLoop) rfl ?_ rfl, rfl⟩
      exact Keyword.next_endLoop_eq_none hflow
  | breakIf cond =>
    have hnext := next_jump (s := s) (k := .test .breakTrue) rfl
    obtain ⟨rfl, hst⟩ := exec_done (x := s.breakIf cond) h
    rw [Assembler.breakIf, guarded_eq hphase hreport] at hst
    split_ifs at hst with hloop
    · cases hst
      have hloop : s.inLoop = false := by simpa using hloop
      exact .inl ⟨_, .misplaced (k := .test .breakTrue) rfl (by simp [hnext, hloop]) rfl, rfl⟩
    · have hloop : s.inLoop = true := by simpa using hloop
      have hplace : s.HasPlaceFor (.breakIf cond) := by
        rintro k ⟨⟩
        simp [hnext, hloop]
      obtain ⟨⟨c, s1⟩, hcond, hst⟩ := except_bind_eq_ok.mp hst
      cases c with
      | none =>
        cases hst
        exact .inl (condition_none hplace rfl hcond)
      | some c =>
        cases hst
        obtain ⟨herr, htype, d, hemit, rfl⟩ := condition_some hcond
        exact .inr (.test rfl herr htype hemit (by simp [hnext, hloop]))
  | ifTrue cond =>
    obtain ⟨rfl, hst⟩ := exec_done (x := s.ifTrue cond) h
    rw [Assembler.ifTrue, guarded_eq hphase hreport] at hst
    obtain ⟨⟨c, s1⟩, hcond, hst⟩ := except_bind_eq_ok.mp hst
    cases c with
    | none =>
      cases hst
      have hplace : s.HasPlaceFor (.ifTrue cond) := by
        rintro k ⟨⟩
        exact nofun
      exact .inl (condition_none hplace rfl hcond)
    | some c =>
      cases hst
      obtain ⟨herr, htype, d, hemit, rfl⟩ := condition_some hcond
      exact .inr (.test rfl herr htype hemit rfl)
  | breakLoop =>
    obtain ⟨rfl, hst⟩ := exec_done (x := s.breakLoop) h
    exact jump_cases hphase hreport rfl rfl hst
  | continueLoop =>
    obtain ⟨rfl, hst⟩ := exec_done (x := s.continueLoop) h
    exact jump_cases hphase hreport rfl rfl hst
  | elseBranch =>
    obtain ⟨rfl, hst⟩ := exec_done (x := s.elseBranch) h
    rw [Assembler.elseBranch, guarded_eq hphase hreport] at hst
    split at hst
    · rename_i hflow
      cases hst
      exact .inr (.word rfl (by rw [hflow]; rfl))
    · rename_i hflow
      cases hst
      refine .inl ⟨_, .misplaced (k := .word .elseBranch) rfl ?_ rfl, rfl⟩
      exact Keyword.next_elseBranch_eq_none hflow
  | endIf =>
    obtain ⟨rfl, hst⟩ := exec_done (x := s.endIf) h
    rw [Assembler.endIf, guarded_eq hphase hreport] at hst
    split at hst
    · rename_i hflow
      cases hst
      exact .inr (.word rfl (by rw [hflow]; rfl))
    · rename_i hflow
      cases hst
      exact .inr (.word rfl (by rw [hflow]; rfl))
    · rename_i hif helse
      cases hst
      refine .inl ⟨_, .misplaced (k := .word .endIf) rfl ?_ rfl, rfl⟩
      exact Keyword.next_endIf_eq_none hif helse

theorem exec_does (hphase : s.phase = .building) (hreport : s.report = none)
    (h : s.exec st = .ok (o, s')) (hok : s'.report = none) : Does s st o s' := by
  refine (exec_cases hphase hreport h).resolve_left ?_
  rintro ⟨r, -, rfl⟩
  rw [fail_report hreport] at hok
  cases hok

theorem execAll_cons_ok {sts : List Statement} {os : List Outcome} :
    s.execAll (st :: sts) = .ok (os, s') ↔ ∃ o s₁ os₁, s.exec st = .ok (o, s₁) ∧
      s₁.execAll sts = .ok (os₁, s') ∧ os = o :: os₁ := by
  rw [execAll, except_bind_eq_ok]
  constructor
  · rintro ⟨⟨o, s₁⟩, hexec, h⟩
    obtain ⟨⟨os₁, s₂⟩, hrest, h⟩ := except_bind_eq_ok.mp h
    cases h
    exact ⟨o, s₁, os₁, hexec, hrest, rfl⟩
  · rintro ⟨o, s₁, os₁, hexec, hrest, rfl⟩
    exact ⟨(o, s₁), hexec, except_bind_eq_ok.mpr ⟨(os₁, s'), hrest, rfl⟩⟩

/-- The trees of an accepted statement have no errors. -/
theorem Does.errors_of_mem (h : Does s st o s') : ∀ e ∈ st.exprs, e.errors (some s.unit) = [] := by
  intro e he
  cases h with
  | declare | comment => cases he
  | word hw =>
    rw [Statement.exprs_of_word hw] at he
    cases he
  | eval herr =>
    rw [List.mem_singleton.mp he]
    exact herr
  | test ht herr =>
    rw [Statement.exprs_of_test ht] at he
    rw [List.mem_singleton.mp he]
    exact herr
  | assign herr =>
    obtain ⟨hdst, herr, -⟩ := LValue.assignErrors_eq_nil herr
    simp only [Statement.exprs, List.mem_cons, List.not_mem_nil, or_false] at he
    rcases he with rfl | rfl
    · exact hdst
    · exact herr

theorem Does.unit_eq (h : Does s st o s') : s'.unit = s.unit := by
  cases h <;> rfl

theorem Does.target_eq (h : Does s st o s') : s'.target = s.target := by
  cases h <;> rfl

theorem Does.phase_eq (h : Does s st o s') : s'.phase = s.phase := by
  cases h <;> rfl

/-- An accepted statement adds lines, literals and registers, and removes nothing. -/
theorem Does.grows (h : Does s st o s') : s.registers ≤ s'.registers ∧
    s.draft.literals.Grows s'.draft.literals ∧
    ∃ ls, s'.draft.code.toList = s.draft.code.toList ++ ls := by
  cases h with
  | declare ht => exact ⟨Nat.le_add_right _ _, .refl _, [], by simp⟩
  | eval herr hemit =>
    obtain ⟨is, his⟩ := Emit.Growing.expr _ _ _ _ _ hemit
    exact ⟨his.next, his.literals, _, his.code⟩
  | assign herr hstore =>
    obtain ⟨is, his⟩ := Emit.Growing.store _ _ _ _ _ _ hstore
    exact ⟨his.next, his.literals, _, his.code⟩
  | comment => exact ⟨Nat.le_refl _, .refl _, [_], Draft.remarked_code_toList _ _⟩
  | word hw => exact ⟨Nat.le_refl _, .refl _, [_], Draft.written_code_toList _ _⟩
  | test ht herr htype hemit =>
    obtain ⟨is, his⟩ := Emit.Growing.expr _ _ _ _ _ hemit
    exact ⟨his.next, his.literals, is.map .instruction ++ [_], by simp [writeLine, his.code]; rfl⟩

end Assembler

/-! ### Runs -/

/-- A statement that was carried out, with the states around it. -/
structure Step where
  pre : Assembler
  statement : Statement
  outcome : Outcome
  post : Assembler

namespace Step

/-- The lines a step added to the code. -/
def lines (t : Step) : List Line := t.post.draft.code.toList.drop t.pre.draft.code.toList.length

/-- The variable a step declared. -/
def declared? (t : Step) : Option Variable :=
  match t.outcome with
  | .declared v => some v
  | _ => none

end Step

/-- The variables that steps declared. -/
def declaredBy (steps : List Step) : List Variable := steps.filterMap Step.declared?

/-- Accepted statements one after the other. A variable of the unit can be mentioned once a step has
declared it. -/
inductive Run (start : Assembler) : List Step → Assembler → Prop
  | nil : Run start [] start
  | snoc {steps s st o s'} (h : Run start steps s)
      (hvars : ∀ v ∈ st.vars, v.home.map Home.unit = some s.unit →
        v ∈ declaredBy steps)
      (hexec : s.exec st = .ok (o, s')) (hok : s'.report = none) :
    Run start (steps ++ [⟨s, st, o, s'⟩]) s'

theorem Assembler.begin_spec {s₀ s : Assembler} (h : s₀.begin = .ok s) :
    s.phase = .building ∧ s.report = none ∧ s.draft = {} := by
  unfold begin at h
  split_ifs at h
  cases h
  exact ⟨rfl, rfl, rfl⟩

theorem Step.lines_eq {t : Step} {l : List Line}
    (h : t.post.draft.code.toList = t.pre.draft.code.toList ++ l) : t.lines = l := by
  rw [Step.lines, h, List.drop_left]

theorem Step.code_eq {t : Step} (h : t.pre.Does t.statement t.outcome t.post) :
    t.post.draft.code.toList = t.pre.draft.code.toList ++ t.lines := by
  obtain ⟨-, -, ls, hls⟩ := h.grows
  rw [Step.lines_eq hls, hls]

namespace Run

variable {s₀ start s : Assembler} {steps before after : List Step} {t : Step}

theorem state (hbegin : s₀.begin = .ok start) (h : Run start steps s) :
    s.phase = .building ∧ s.report = none ∧ s.unit = start.unit ∧ s.target = start.target := by
  obtain ⟨hphase, hreport, -⟩ := Assembler.begin_spec hbegin
  induction h with
  | nil => exact ⟨hphase, hreport, rfl, rfl⟩
  | snoc h hvars hexec hok ih =>
    obtain ⟨hp, hr, hu, ht⟩ := ih
    have hdoes := Assembler.exec_does hp hr hexec hok
    exact ⟨hdoes.phase_eq.trans hp, hok, hdoes.unit_eq.trans hu, hdoes.target_eq.trans ht⟩

/-- Each step of a run comes after a run of the steps before it. -/
theorem split (h : Run start (before ++ t :: after) s) : Run start before t.pre ∧
    (∀ v ∈ t.statement.vars, v.home.map Home.unit = some t.pre.unit →
      v ∈ declaredBy before) ∧
    t.pre.exec t.statement = .ok (t.outcome, t.post) ∧ t.post.report = none := by
  generalize hsteps : before ++ t :: after = steps at h
  induction h generalizing after with
  | nil => simp at hsteps
  | @snoc steps s st o s' h hvars hexec hok ih =>
    rcases List.eq_nil_or_concat after with rfl | ⟨after', u, rfl⟩
    · obtain ⟨rfl, hu⟩ := List.append_inj' hsteps rfl
      cases hu
      exact ⟨h, hvars, hexec, hok⟩
    · rw [List.concat_eq_append, ← List.cons_append, ← List.append_assoc] at hsteps
      exact ih (List.append_inj' hsteps rfl).1

theorem split_does (hbegin : s₀.begin = .ok start) (h : Run start (before ++ t :: after) s) :
    t.pre.Does t.statement t.outcome t.post := by
  obtain ⟨hbefore, -, hexec, hok⟩ := h.split
  obtain ⟨hphase, hreport, -⟩ := hbefore.state hbegin
  exact Assembler.exec_does hphase hreport hexec hok

theorem code_eq (hbegin : s₀.begin = .ok start) (h : Run start steps s) :
    s.draft.code.toList = steps.flatMap Step.lines := by
  induction h with
  | nil => simp [(Assembler.begin_spec hbegin).2.2]
  | @snoc steps s st o s' h hvars hexec hok ih =>
    obtain ⟨hphase, hreport, -⟩ := h.state hbegin
    have hcode := Step.code_eq (t := ⟨s, st, o, s'⟩)
      (Assembler.exec_does hphase hreport hexec hok)
    simp only at hcode
    rw [hcode, ih, List.flatMap_append, List.flatMap_singleton]

theorem literals_inverse (hbegin : s₀.begin = .ok start) (h : Run start steps s) :
    s.draft.literals.Inverse := by
  induction h with
  | nil =>
    rw [(Assembler.begin_spec hbegin).2.2]
    exact LiteralTable.inverse_empty
  | snoc h hvars hexec hok ih =>
    obtain ⟨hphase, hreport, -⟩ := h.state hbegin
    obtain ⟨-, hgrows, -⟩ := (Assembler.exec_does hphase hreport hexec hok).grows
    exact hgrows.inverse ih

theorem registers_le (hbegin : s₀.begin = .ok start) (h : Run start steps s) :
    ∀ t ∈ steps, t.pre.registers ≤ t.post.registers ∧ t.post.registers ≤ s.registers := by
  induction h with
  | nil => simp
  | @snoc steps s st o s' h hvars hexec hok ih =>
    obtain ⟨hphase, hreport, -⟩ := h.state hbegin
    obtain ⟨hle, -⟩ := (Assembler.exec_does hphase hreport hexec hok).grows
    intro t ht
    rcases List.mem_append.mp ht with ht | ht
    · obtain ⟨h1, h2⟩ := ih t ht
      exact ⟨h1, h2.trans hle⟩
    · obtain rfl := List.mem_singleton.mp ht
      exact ⟨hle, Nat.le_refl _⟩

/-- A declared variable has a type and a register that is taken. -/
theorem variable_spec (hbegin : s₀.begin = .ok start) (h : Run start steps s) {v : Variable}
    (hv : v ∈ declaredBy steps) :
    v.declared.valid = true ∧ ∃ r, v.home = some ⟨s.unit, r⟩ ∧ r < s.registers := by
  induction h with
  | nil => simp [declaredBy] at hv
  | @snoc steps s st o s' h hvars hexec hok ih =>
    obtain ⟨hphase, hreport, -⟩ := h.state hbegin
    have hdoes := Assembler.exec_does hphase hreport hexec hok
    rw [declaredBy, List.filterMap_append, List.mem_append] at hv
    rcases hv with hv | hv
    · obtain ⟨hvalid, r, hr, hlt⟩ := ih hv
      rw [hdoes.unit_eq]
      exact ⟨hvalid, r, hr, Nat.lt_of_lt_of_le hlt hdoes.grows.1⟩
    · cases hdoes with
      | declare ht =>
        simp only [Step.declared?, List.filterMap_cons, List.filterMap_nil, List.mem_singleton] at hv
        subst hv
        exact ⟨ht, _, rfl, Nat.lt_succ_self _⟩
      | _ => simp [Step.declared?] at hv

theorem varsBelow {e : Expr}
    (hbegin : s₀.begin = .ok start) (hrun : Run start steps s) (he : e.Accepted s.unit)
    (hvars : ∀ v ∈ e.vars, v.home.map Home.unit = some s.unit → v ∈ declaredBy steps) :
    e.VarsBelow s.registers := by
  intro v hv h hh
  obtain ⟨-, r, hr⟩ := he.variable_home v hv
  obtain ⟨-, r', hr', hlt⟩ := hrun.variable_spec hbegin (hvars v hv (by rw [hr]; rfl))
  rw [hh] at hr'
  cases hr'
  exact hlt

end Run

end ShaderIL
