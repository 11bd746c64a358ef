import ShaderIL.Proofs.Expr.Validation
import ShaderIL.Proofs.Script.Trace

/-!
# Where variables come from

A statement of a session mentions only variables that the session knows
(`Session.knows_of_statement`), and it knows only those that were declared
(`Trace.declared_of_knows`): a term can name a variable by its number, or through an expression that was
kept. The home of a variable tells who declared it and when: its unit has the number of the assembler,
and a generation that falls behind by one with every unit the assembler opens since
(`Trace.home_of_declared`). So a variable was declared in the assembler's current unit exactly if the
unit is its home (`livesIn_iff`).
-/

namespace ShaderIL

/-! ### Variables of trees that are built -/

namespace Expr

variable {P : Variable → Prop} {e x y z : Expr}

/-- Every variable that the tree mentions has the property. -/
def MentionsOnly (P : Variable → Prop) (e : Expr) : Prop := ∀ v ∈ e.vars, P v

theorem mentionsOnly_iff :
    e.MentionsOnly P ↔ (∀ v ∈ e.ownVars, P v) ∧ ∀ x ∈ e.children, x.MentionsOnly P := by
  unfold MentionsOnly
  rw [vars_eq]
  constructor
  · intro h
    exact ⟨fun v hv => h v (List.mem_append_left _ hv), fun x hx v hv =>
      h v (List.mem_append_right _ (List.mem_flatMap.mpr ⟨x, hx, hv⟩))⟩
  · rintro ⟨hown, hchildren⟩ v hv
    rcases List.mem_append.mp hv with hv | hv
    · exact hown v hv
    · obtain ⟨x, hx, hv⟩ := List.mem_flatMap.mp hv
      exact hchildren x hx v hv

theorem MentionsOnly.of_children (hown : e.ownVars = []) (h : ∀ x ∈ e.children, x.MentionsOnly P) :
    e.MentionsOnly P := by
  rw [mentionsOnly_iff, hown]
  exact ⟨nofun, h⟩

theorem MentionsOnly.leaf (hown : e.ownVars = []) (hchildren : e.children = []) : e.MentionsOnly P :=
  .of_children hown (by rw [hchildren]; exact nofun)

theorem MentionsOnly.var {v : Variable} (hv : P v) : (var v).MentionsOnly P :=
  mentionsOnly_iff.mpr ⟨by simpa [ownVars] using hv, nofun⟩

theorem MentionsOnly.view {v : Variable} {mask : String} (hv : P v) : (view v mask).MentionsOnly P :=
  mentionsOnly_iff.mpr ⟨by simpa [ownVars] using hv, nofun⟩

theorem MentionsOnly.select {p : Swizzle} (hx : x.MentionsOnly P) : (select x p).MentionsOnly P :=
  .of_children rfl (by simpa [children] using hx)

theorem MentionsOnly.mkUnary {op : UnaryOp} (hx : x.MentionsOnly P) (h : mkUnary op x = .ok e) :
    e.MentionsOnly P := by
  rw [mkUnary_eq h]
  exact .of_children rfl (by simpa [children] using hx)

theorem MentionsOnly.mkConvert {op : Conversion} {t : ValueType} (hx : x.MentionsOnly P)
    (h : mkConvert op t x = .ok e) : e.MentionsOnly P := by
  rw [mkConvert_eq h]
  exact .of_children rfl (by simpa [children] using hx)

theorem MentionsOnly.mkBinary {op : BinaryOp} (hx : x.MentionsOnly P) (hy : y.MentionsOnly P)
    (h : mkBinary op x y = .ok e) : e.MentionsOnly P := by
  rw [mkBinary_eq h]
  exact .of_children rfl (by simpa [children] using ⟨hx, hy⟩)

theorem MentionsOnly.mkTernary {op : TernaryOp} (hx : x.MentionsOnly P) (hy : y.MentionsOnly P)
    (hz : z.MentionsOnly P) (h : mkTernary op x y z = .ok e) : e.MentionsOnly P := by
  rw [mkTernary_eq h]
  exact .of_children rfl (by simpa [children] using ⟨hx, hy, hz⟩)

theorem MentionsOnly.sampleAt {i : Input} (hx : x.MentionsOnly P) (h : sampleAt i x = .ok e) :
    e.MentionsOnly P := by
  rw [sampleAt_eq h]
  exact .of_children rfl (by simpa [children] using hx)

/-- The property holds of what an operand mentions; a constant in its place mentions nothing. -/
def ArgMentionsOnly (P : Variable → Prop) (a : Arg) : Prop := ∀ like, (ofArg like a).MentionsOnly P

theorem MentionsOnly.arg (hx : x.MentionsOnly P) : ArgMentionsOnly P (.expr x) := fun _ => hx

theorem argMentionsOnly_const (k : Host) : ArgMentionsOnly P (.const k) := fun _ => .leaf rfl rfl

theorem MentionsOnly.multiplyAdd {a b c : Arg} (ha : ArgMentionsOnly P a) (hb : ArgMentionsOnly P b)
    (hc : ArgMentionsOnly P c) (h : multiplyAdd a b c = .ok e) : e.MentionsOnly P := by
  obtain ⟨like, -, h⟩ := except_bind_eq_ok.mp h
  exact .mkTernary (ha like) (hb like) (hc like) h

/-- A selection from a selection is folded, and mentions what the inner one does. -/
theorem MentionsOnly.pick (hx : x.MentionsOnly P) (p : Swizzle) : (pick x p).MentionsOnly P := by
  rcases pick_eq x p with h | ⟨y, q, rfl, -, h⟩
  · rw [h]
    exact hx.select
  · rw [h]
    exact ((mentionsOnly_iff.mp hx).2 y (by simp [children])).select

theorem MentionsOnly.unselected {cause : Error} (hx : x.MentionsOnly P) :
    (unselected x cause).MentionsOnly P :=
  .of_children rfl (by simpa [children] using hx)

theorem MentionsOnly.selectText {pattern : String} (hx : x.MentionsOnly P)
    (h : selectText x pattern = .ok e) : e.MentionsOnly P := by
  unfold Expr.selectText at h
  split at h
  · cases h
    exact hx.unselected
  · obtain ⟨t, -, h⟩ := except_bind_eq_ok.mp h
    cases h
    exact hx.pick _

theorem MentionsOnly.splat {n : Int} (hx : x.MentionsOnly P) (h : splat x n = .ok e) :
    e.MentionsOnly P := by
  unfold Expr.splat at h
  split_ifs at h
  · cases h
    exact hx.unselected
  · obtain ⟨t, -, h⟩ := except_bind_eq_ok.mp h
    cases h
    exact hx.pick _

end Expr

theorem LValue.toExpr_of_ofExpr? {e : Expr} {d : LValue} (h : ofExpr? e = some d) : d.toExpr = e := by
  cases e <;> cases h <;> rfl

namespace Script

variable {S S' : Session} {events : List Event} {e : Event} {i j : Nat} {a : Assembler} {v : Variable}

/-- The environment has the variable, or an expression that mentions it. -/
def Env.Knows (env : Env) (v : Variable) : Prop := v ∈ env.vars ∨ ∃ x ∈ env.kept, v ∈ x.vars

theorem insertArg_forall {α : Type} {Q : α → Prop} {a b c : α} (ha : Q a) (hb : Q b) (hc : Q c)
    (slot : Fin 3) : Q (insertArg slot a b c).1 ∧ Q (insertArg slot a b c).2.1 ∧
      Q (insertArg slot a b c).2.2 := by
  unfold insertArg
  split
  · exact ⟨ha, hb, hc⟩
  · exact ⟨hb, ha, hc⟩
  · exact ⟨hb, hc, ha⟩

theorem Env.knows_of_var {env : Env} (h : env.var i = .ok v) : env.Knows v := by
  unfold Env.var at h
  split at h
  · rename_i hi
    cases h
    exact .inl (Array.mem_of_getElem? hi)
  · cases h

theorem Env.knows_of_expr {env : Env} {x : Expr} (h : env.expr i = .ok x) :
    x.MentionsOnly env.Knows := by
  unfold Env.expr at h
  split at h
  · rename_i hi
    cases h
    exact fun v hv => .inr ⟨x, Array.mem_of_getElem? hi, hv⟩
  · cases h

/-- A term mentions only variables that the environment knows. -/
theorem Term.knows_of_build {env : Env} (t : Term) :
    ∀ {x : Expr}, t.build env = .ok x → x.MentionsOnly env.Knows := by
  have hconst : ∀ k : Host, Expr.ArgMentionsOnly env.Knows (.const k) := Expr.argMentionsOnly_const
  induction t with
  | absent | const | vector | external | elementAt | field | position =>
    intro x h
    cases h
    exact .leaf rfl rfl
  | unary op t ih =>
    intro x h
    obtain ⟨a, ha, h⟩ := except_bind_eq_ok.mp h
    exact (ih ha).mkUnary h
  | convert op type t ih =>
    intro x h
    obtain ⟨a, ha, h⟩ := except_bind_eq_ok.mp h
    exact (ih ha).mkConvert h
  | binary op t u iht ihu =>
    intro x h
    obtain ⟨a, ha, h⟩ := except_bind_eq_ok.mp h
    obtain ⟨b, hb, h⟩ := except_bind_eq_ok.mp h
    exact (iht ha).mkBinary (ihu hb) h
  | binaryConst op t k ih =>
    intro x h
    obtain ⟨a, ha, h⟩ := except_bind_eq_ok.mp h
    obtain ⟨like, -, h⟩ := except_bind_eq_ok.mp h
    exact (ih ha).mkBinary (hconst k like) h
  | constBinary op k t ih =>
    intro x h
    obtain ⟨a, ha, h⟩ := except_bind_eq_ok.mp h
    obtain ⟨like, -, h⟩ := except_bind_eq_ok.mp h
    exact Expr.MentionsOnly.mkBinary (hconst k like) (ih ha) h
  | ternary op t u w iht ihu ihw =>
    intro x h
    obtain ⟨a, ha, h⟩ := except_bind_eq_ok.mp h
    obtain ⟨b, hb, h⟩ := except_bind_eq_ok.mp h
    obtain ⟨c, hc, h⟩ := except_bind_eq_ok.mp h
    exact (iht ha).mkTernary (ihu hb) (ihw hc) h
  | madConst slot t u k iht ihu =>
    intro x h
    obtain ⟨a, ha, h⟩ := except_bind_eq_ok.mp h
    obtain ⟨b, hb, h⟩ := except_bind_eq_ok.mp h
    obtain ⟨hp, hq, hr⟩ :=
      insertArg_forall (hconst k) (iht ha).arg (ihu hb).arg slot
    exact .multiplyAdd hp hq hr h
  | madConsts slot t k l ih =>
    intro x h
    obtain ⟨a, ha, h⟩ := except_bind_eq_ok.mp h
    obtain ⟨hp, hq, hr⟩ := insertArg_forall (ih ha).arg (hconst k) (hconst l) slot
    exact .multiplyAdd hp hq hr h
  | alignConst op t u k iht ihu =>
    intro x h
    obtain ⟨a, ha, h⟩ := except_bind_eq_ok.mp h
    obtain ⟨b, hb, h⟩ := except_bind_eq_ok.mp h
    obtain ⟨like, -, h⟩ := except_bind_eq_ok.mp h
    exact (iht ha).mkTernary (ihu hb) (hconst k like) h
  | extractConst t offset width ih =>
    intro x h
    obtain ⟨a, ha, h⟩ := except_bind_eq_ok.mp h
    obtain ⟨like, -, h⟩ := except_bind_eq_ok.mp h
    exact (ih ha).mkTernary (hconst offset like) (hconst width like) h
  | mergeFour t u w s iht ihu ihw ihs =>
    intro x h
    obtain ⟨a, ha, h⟩ := except_bind_eq_ok.mp h
    obtain ⟨b, hb, h⟩ := except_bind_eq_ok.mp h
    obtain ⟨c, hc, h⟩ := except_bind_eq_ok.mp h
    obtain ⟨d, hd, h⟩ := except_bind_eq_ok.mp h
    obtain ⟨low, hlow, h⟩ := except_bind_eq_ok.mp h
    obtain ⟨high, hhigh, h⟩ := except_bind_eq_ok.mp h
    exact ((iht ha).mkBinary (ihu hb) hlow).mkBinary ((ihw hc).mkBinary (ihs hd) hhigh) h
  | select t pattern ih =>
    intro x h
    obtain ⟨a, ha, h⟩ := except_bind_eq_ok.mp h
    exact (ih ha).selectText h
  | splat t n ih =>
    intro x h
    obtain ⟨a, ha, h⟩ := except_bind_eq_ok.mp h
    exact (ih ha).splat h
  | sampleXY input t u iht ihu =>
    intro x h
    obtain ⟨a, ha, h⟩ := except_bind_eq_ok.mp h
    obtain ⟨b, hb, h⟩ := except_bind_eq_ok.mp h
    obtain ⟨c, hc, h⟩ := except_bind_eq_ok.mp h
    exact ((iht ha).mkBinary (ihu hb) hc).sampleAt h
  | sampleAt input t ih =>
    intro x h
    obtain ⟨a, ha, h⟩ := except_bind_eq_ok.mp h
    exact (ih ha).sampleAt h
  | element type t start shifts ih =>
    intro x h
    obtain ⟨a, ha, h⟩ := except_bind_eq_ok.mp h
    cases h
    exact .of_children rfl (by simpa [Expr.children] using ih ha)
  | var i =>
    intro x h
    obtain ⟨v, hv, h⟩ := except_bind_eq_ok.mp h
    cases h
    exact .var (Env.knows_of_var hv)
  | view i mask =>
    intro x h
    obtain ⟨v, hv, h⟩ := except_bind_eq_ok.mp h
    cases h
    exact .view (Env.knows_of_var hv)
  | varSelect i pattern =>
    intro x h
    obtain ⟨v, hv, h⟩ := except_bind_eq_ok.mp h
    exact (Expr.MentionsOnly.var (Env.knows_of_var hv)).selectText h
  | earlier i => exact Env.knows_of_expr

theorem Session.knows_of_lvalue {t : Term} {d : LValue} (h : S.lvalue t = .ok (some d)) :
    d.toExpr.MentionsOnly S.env.Knows := by
  obtain ⟨x, hx, h⟩ := except_bind_eq_ok.mp h
  split at h
  · cases h
  · split at h
    · rename_i d' hd
      cases h
      rw [LValue.toExpr_of_ofExpr? hd]
      exact t.knows_of_build hx
    · cases h

/-- A statement mentions only variables that the session knows. -/
theorem Session.knows_of_statement {action : Action} {st : Statement}
    (h : S.statement? action = .ok (some st)) : ∀ v ∈ st.vars, S.env.Knows v := by
  have hsingle : ∀ {x : Expr}, x.MentionsOnly S.env.Knows →
      ∀ v ∈ [x].flatMap Expr.vars, S.env.Knows v := by
    intro x hx v hv
    rw [List.flatMap_singleton] at hv
    exact hx v hv
  cases action with
  | eval t | breakIf t | ifTrue t =>
    obtain ⟨x, hx, h⟩ := except_bind_eq_ok.mp h
    cases h
    exact hsingle (t.knows_of_build hx)
  | assign dst t =>
    obtain ⟨d?, hd, h⟩ := except_bind_eq_ok.mp h
    obtain ⟨x, hx, h⟩ := except_bind_eq_ok.mp h
    cases h
    cases d? with
    | none => exact hsingle (t.knows_of_build hx)
    | some d =>
      intro v hv
      have hmem : v ∈ d.toExpr.vars ∨ v ∈ x.vars := by
        simpa [Statement.vars, Statement.exprs] using hv
      rcases hmem with hv | hv
      · exact Session.knows_of_lvalue hd v hv
      · exact t.knows_of_build hx v hv
  | declare | comment | whileLoop | endLoop | breakLoop | continueLoop | elseBranch | endIf =>
    cases h
    intro v hv
    cases hv
  | begin | finish | header | code | program | write | bindings | target => cases h

/-! ### Variables of sessions are declared -/

theorem Session.action_of_declare {action : Action} {t : ValueType}
    (h : S.statement? action = .ok (some (.declare t))) : action = .declare t := by
  cases action with
  | declare t' =>
    cases h
    rfl
  | eval | breakIf | ifTrue =>
    obtain ⟨x, -, h⟩ := except_bind_eq_ok.mp h
    cases h
  | assign =>
    obtain ⟨d?, -, h⟩ := except_bind_eq_ok.mp h
    obtain ⟨x, -, h⟩ := except_bind_eq_ok.mp h
    cases h
  | _ => cases h

/-- What the session knows after an event, it knew before, or the event declared it. -/
theorem Event.declared_of_knows (hstep : e.pre.step e.step = .ok (e.answer, e.post))
    (hv : e.post.env.Knows v) : e.pre.env.Knows v ∨ ∃ j, e.declaredOn? j = some v := by
  obtain ⟨pre, step, answer, post⟩ := e
  replace hstep : pre.step step = .ok (answer, post) := hstep
  replace hv : post.env.Knows v := hv
  cases Session.performs_of_step hstep with
  | @keep t x hbuild =>
    left
    rcases hv with hv | ⟨y, hy, hv⟩
    · exact .inl hv
    · rcases Array.mem_push.mp hy with hy | rfl
      · exact .inr ⟨y, hy, hv⟩
      · exact t.knows_of_build hbuild v hv
  | check => exact .inl hv
  | address => exact .inl hv
  | create => exact .inl hv
  | @statement j action a st o a' ha hst hexec =>
    cases o with
    | declared w =>
      rcases hv with hv | hv
      · rcases Array.mem_push.mp hv with hv | rfl
        · exact .inl (.inl hv)
        · obtain ⟨⟨t, rfl⟩, -⟩ := Assembler.exec_declared hexec
          cases Session.action_of_declare hst
          exact .inr ⟨j, Event.declaredOn?_eq_some.mpr ⟨t, rfl, rfl⟩⟩
      · exact .inl (.inr hv)
    | done => exact .inl hv
    | value r => exact .inl hv
  | query => exact .inl hv

theorem Trace.declared_of_knows (h : Trace S events S') (hv : S'.env.Knows v) :
    S.env.Knows v ∨ ∃ j, v ∈ declaredOn j events := by
  induction h with
  | nil => exact .inl hv
  | @cons S e events S' hpre hstep rest ih =>
    subst hpre
    rcases ih hv with hv | ⟨j, hj⟩
    · rcases Event.declared_of_knows hstep hv with hv | ⟨j, hj⟩
      · exact .inl hv
      · exact .inr ⟨j, List.mem_filterMap.mpr ⟨e, List.mem_cons_self, hj⟩⟩
    · obtain ⟨e', he', hj⟩ := List.mem_filterMap.mp hj
      exact .inr ⟨j, List.mem_filterMap.mpr ⟨e', List.mem_cons_of_mem e he', hj⟩⟩

/-! ### Homes -/

/-- The assemblers have the numbers under which the session has them. -/
def Session.Numbered (S : Session) : Prop := ∀ i (a : Assembler), S.assemblers[i]? = some a → a.id = i

theorem Session.numbered_empty : ({} : Session).Numbered := by
  intro i a ha
  simp at ha

theorem Event.numbered (hstep : e.pre.step e.step = .ok (e.answer, e.post)) (h : e.pre.Numbered) :
    e.post.Numbered := by
  intro i a' ha'
  cases ha : e.pre.assemblers[i]? with
  | some a =>
    obtain ⟨a₁, ha₁, htouches⟩ := Event.exists_touches hstep ha
    cases ha'.symm.trans ha₁
    rw [htouches.unit_eq.1]
    exact h i a ha
  | none =>
    -- only the creation of an assembler adds one
    have hsize : e.pre.assemblers.size ≤ i := Array.getElem?_eq_none_iff.mp ha
    obtain ⟨pre, step, answer, post⟩ := e
    replace hstep : pre.step step = .ok (answer, post) := hstep
    cases Session.performs_of_step hstep with
    | create =>
      rw [Array.getElem?_push] at ha'
      split_ifs at ha' with hi
      · cases ha'
        exact hi.symm
      · cases ha.symm.trans ha'
    | keep | check | address => cases ha.symm.trans ha'
    | statement | query =>
      have hlt := (Array.getElem?_eq_some_iff.mp ha').1
      simp only [Session.withAssembler, Array.size_setIfInBounds] at hlt
      exact absurd hlt (Nat.not_lt.mpr hsize)

theorem Trace.numbered (h : Trace S events S') (hS : S.Numbered) : S'.Numbered := by
  induction h with
  | nil => exact hS
  | cons hpre hstep rest ih =>
    subst hpre
    exact ih (Event.numbered hstep hS)

/-- A variable is declared by an assembler that is there, in its unit. -/
theorem Event.homeIn_of_declaredOn? (hstep : e.pre.step e.step = .ok (e.answer, e.post))
    (hv : e.declaredOn? j = some v) :
    ∃ a, e.pre.assemblers[j]? = some a ∧ v.HomeIn a.unit ∧ e.opens j = false := by
  obtain ⟨t, hact, hreply⟩ := Event.declaredOn?_eq_some.mp hv
  obtain ⟨pre, step, answer, post⟩ := e
  replace hstep : pre.step step = .ok (answer, post) := hstep
  replace hact : step = .act j (.declare t) := hact
  subst hact
  cases Session.performs_of_step hstep with
  | @statement _ _ a st o a' ha hst hexec =>
    cases hst
    cases Session.replyOf_eq_variable hreply
    exact ⟨a, ha, (Assembler.exec_declared hexec).2, rfl⟩
  | query ha hst => cases hst

/-- The home of a variable tells the assembler that declared it, and how many units ago. -/
theorem Trace.home_of_declared {before after : List Event} {home : Home}
    (h : Trace {} (before ++ e :: after) S) (hv : e.declaredOn? j = some v)
    (hhome : v.home = some home) :
    home.unit.assembler = j ∧ ∃ a, S.assemblers[j]? = some a ∧ a.id = j ∧
      a.generation = home.unit.generation + openings j after := by
  obtain ⟨hbefore, hstep, hafter⟩ := h.split
  obtain ⟨a, ha, hin, hopens⟩ := Event.homeIn_of_declaredOn? hstep hv
  have hid : a.id = j := hbefore.numbered Session.numbered_empty j a ha
  obtain ⟨a', ha', hid', hgen⟩ := (Trace.cons rfl hstep hafter).generation_eq ha
  have hcount : openings j (e :: after) = openings j after := by
    simp [openings, hopens]
  rw [hin home hhome]
  exact ⟨hid, a', ha', hid'.trans hid, by rw [hgen, hcount]; rfl⟩

/-! ### The current unit -/

/-- The variable got a register from the assembler since it last opened a unit. -/
def LivesIn (i : Nat) (v : Variable) (events : List Event) : Prop :=
  v.home ≠ none ∧ ∃ before unit, events = before ++ unit ∧ v ∈ declaredOn i unit ∧
    ∀ e ∈ unit, e.opens i = false

theorem mem_declaredOn : v ∈ declaredOn j events ↔
    ∃ before e after, events = before ++ e :: after ∧ e.declaredOn? j = some v := by
  unfold declaredOn
  rw [List.mem_filterMap]
  constructor
  · rintro ⟨e, he, hv⟩
    obtain ⟨before, after, rfl⟩ := List.append_of_mem he
    exact ⟨before, e, after, rfl, hv⟩
  · rintro ⟨before, e, after, rfl, hv⟩
    exact ⟨e, by simp, hv⟩

/-- A variable that lives in the current unit of an assembler has the unit as its home. -/
theorem LivesIn.home (h : Trace {} events S) (ha : S.assemblers[i]? = some a)
    (hv : LivesIn i v events) : ∃ r, v.home = some ⟨a.unit, r⟩ := by
  obtain ⟨hhome, before, unit, rfl, hdeclared, hopens⟩ := hv
  obtain ⟨home, hhome⟩ := Option.ne_none_iff_exists'.mp hhome
  obtain ⟨earlier, e, after, rfl, he⟩ := mem_declaredOn.mp hdeclared
  rw [← List.append_assoc] at h
  obtain ⟨hassembler, a', ha', hid, hgen⟩ := h.home_of_declared he hhome
  cases ha.symm.trans ha'
  have hnone : openings i after = 0 := by
    refine List.countP_eq_zero.mpr fun e' he' => ?_
    simp [hopens e' (by simp [he'])]
  have hunit : home.unit = a.unit := by
    rw [Assembler.unit, hid, hgen, hnone, ← hassembler]
    rfl
  refine ⟨home.register, hhome.trans ?_⟩
  rw [← hunit]

/-- The variable is none of the assembler's current unit: it has no register, another assembler declared
it, or the assembler opened a unit since it did. -/
inductive Astray (i : Nat) (v : Variable) : List Event → Prop
  | homeless {events : List Event} (h : v.home = none) : Astray i v events
  | foreign {events : List Event} {j : Nat} (hj : j ≠ i) (hv : v ∈ declaredOn j events) :
    Astray i v events
  | stale {before after : List Event} {e : Event} (hv : v ∈ declaredOn i before)
      (he : e.opens i = true) :
    Astray i v (before ++ e :: after)

theorem Astray.not_home (h : Trace {} events S) (ha : S.assemblers[i]? = some a)
    (hv : Astray i v events) (r : Nat) : v.home ≠ some ⟨a.unit, r⟩ := by
  intro hhome
  cases hv with
  | homeless hnone => cases hnone.symm.trans hhome
  | foreign hj hdeclared =>
    obtain ⟨before, e, after, rfl, he⟩ := mem_declaredOn.mp hdeclared
    obtain ⟨hassembler, -⟩ := h.home_of_declared he hhome
    have hid : a.id = i := h.numbered Session.numbered_empty i a ha
    exact hj (hassembler.symm.trans hid)
  | @stale before after e hdeclared he =>
    obtain ⟨earlier, e', between, rfl, he'⟩ := mem_declaredOn.mp hdeclared
    rw [List.append_assoc, List.cons_append] at h
    obtain ⟨-, a', ha', -, hgen⟩ := h.home_of_declared he' hhome
    cases ha.symm.trans ha'
    have hcount : 0 < openings i (between ++ e :: after) :=
      List.countP_pos_iff.mpr ⟨e, by simp, he⟩
    simp only [Assembler.unit] at hgen
    omega

/-- There is no third way for a variable that the session knows. -/
theorem livesIn_or_astray (h : Trace {} events S) (hv : S.env.Knows v) :
    LivesIn i v events ∨ Astray i v events := by
  by_cases hhome : v.home = none
  · exact .inr (.homeless hhome)
  obtain ⟨j, hdeclared⟩ := (h.declared_of_knows hv).resolve_left (by simp [Env.Knows])
  by_cases hij : j = i
  · subst hij
    obtain ⟨before, e, after, rfl, he⟩ := mem_declaredOn.mp hdeclared
    by_cases hopens : ∃ e' ∈ after, e'.opens j = true
    · obtain ⟨e', he', hopens⟩ := hopens
      obtain ⟨between, later, rfl⟩ := List.append_of_mem he'
      have hstale : Astray j v ((before ++ e :: between) ++ e' :: later) :=
        .stale (mem_declaredOn.mpr ⟨before, e, between, rfl, he⟩) hopens
      exact .inr (by simpa using hstale)
    · obtain ⟨-, hstep, -⟩ := h.split
      obtain ⟨-, -, -, hfirst⟩ := Event.homeIn_of_declaredOn? hstep he
      have hdeclared : v ∈ declaredOn j (e :: after) := mem_declaredOn.mpr ⟨[], e, after, rfl, he⟩
      refine .inl ⟨hhome, before, e :: after, rfl, hdeclared, ?_⟩
      intro e' he'
      rcases List.mem_cons.mp he' with rfl | he'
      · exact hfirst
      · exact Bool.not_eq_true _ ▸ fun hopen => hopens ⟨e', he', hopen⟩
  · exact .inr (.foreign hij hdeclared)

/-- A variable that the session knows lives in the current unit of an assembler exactly if the unit is
its home. -/
theorem livesIn_iff (h : Trace {} events S) (ha : S.assemblers[i]? = some a) (hv : S.env.Knows v) :
    LivesIn i v events ↔ ∃ r, v.home = some ⟨a.unit, r⟩ := by
  refine ⟨LivesIn.home h ha, ?_⟩
  rintro ⟨r, hhome⟩
  refine (livesIn_or_astray h hv).resolve_right fun hastray => ?_
  exact hastray.not_home h ha r hhome

end Script

end ShaderIL
