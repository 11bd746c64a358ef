import ShaderIL.Proofs.Assembler.Relocation
import ShaderIL.Script.Session

/-!
# Traces of sessions

A `Trace` is a session's steps carried out one after the other, on any number of assemblers and in any
order. `Session.Performs` says once what a step does, and `Event.Touches` what that is for one
assembler: the steps on the others leave it alone. So the part of a trace between the opening and the
end of a unit is, for the assembler, a sequence of statements (`Trace.execAll_statementsOn`), and the
generation of an assembler counts the openings (`Trace.generation_eq`).
-/

namespace ShaderIL.Script

/-- A step that was carried out, with the session before it and the session after it. -/
structure Event where
  pre : Session
  step : Step
  answer : Answer
  post : Session

/-- Steps carried out in order, none of them with a fault. -/
inductive Trace : Session → List Event → Session → Prop
  | nil {S} : Trace S [] S
  | cons {S e events S'} (hpre : e.pre = S) (hstep : e.pre.step e.step = .ok (e.answer, e.post))
      (rest : Trace e.post events S') : Trace S (e :: events) S'

namespace Event

/-- The statement that the event makes on an assembler. -/
def statementOn? (i : Nat) (e : Event) : Option Statement :=
  match e.step with
  | .act j action => if j = i then (e.pre.statement? action).toOption.join else none
  | _ => none

/-- The variable that the event declares on an assembler, with a register or without. -/
def declaredOn? (i : Nat) (e : Event) : Option Variable :=
  match e.step, e.answer.reply with
  | .act j (.declare _), .variable v => if j = i then some v else none
  | _, _ => none

/-- The event opens a unit of an assembler. -/
def opens (i : Nat) (e : Event) : Bool :=
  match e.step, e.answer.reply with
  | .act j .begin, .verdict none => j == i
  | _, _ => false

end Event

/-- The variables declared on an assembler. -/
def declaredOn (i : Nat) (events : List Event) : List Variable :=
  events.filterMap (Event.declaredOn? i)

/-- The number of units of an assembler that were opened. -/
def openings (i : Nat) (events : List Event) : Nat := events.countP (Event.opens i)

variable {S S' : Session} {step : Step} {answer : Answer} {events before after : List Event} {e : Event}
  {i : Nat} {a : Assembler}

namespace Trace

/-- A run carries out the steps before its first fault, and they are a trace. -/
theorem of_run (S : Session) (steps : List Step) :
    ∃ events, Trace S events (S.run steps).2.2 ∧ events.map Event.answer = (S.run steps).1 ∧
      events.map Event.step <+: steps := by
  induction steps generalizing S with
  | nil => exact ⟨[], .nil, rfl, List.prefix_refl _⟩
  | cons step steps ih =>
    cases hstep : S.step step with
    | error f =>
      refine ⟨[], ?_, ?_, List.nil_prefix⟩ <;> simp only [Session.run, hstep]
      · exact .nil
      · rfl
    | ok r =>
      obtain ⟨answer, S₁⟩ := r
      obtain ⟨events, htrace, hanswers, hsteps⟩ := ih S₁
      refine ⟨⟨S, step, answer, S₁⟩ :: events, ?_, ?_, (List.prefix_cons_inj _).mpr hsteps⟩
      · simp only [Session.run, hstep]
        exact .cons rfl hstep htrace
      · simp only [Session.run, hstep, List.map_cons, hanswers]

theorem split (h : Trace S (before ++ e :: after) S') : Trace S before e.pre ∧
    e.pre.step e.step = .ok (e.answer, e.post) ∧ Trace e.post after S' := by
  induction before generalizing S with
  | nil =>
    cases h with
    | cons hpre hstep rest => exact ⟨hpre ▸ .nil, hstep, rest⟩
  | cons e' before ih =>
    cases h with
    | cons hpre hstep rest =>
      obtain ⟨hbefore, he, hafter⟩ := ih rest
      exact ⟨.cons hpre hstep hbefore, he, hafter⟩

end Trace

/-! ### What a step does -/

namespace Session

/-- What a step does that is carried out. -/
inductive Performs (S : Session) : Step → Answer → Session → Prop
  | keep {t x} (hbuild : t.build S.env = .ok x) :
    Performs S (.keep t) ⟨.type (typeOf x), none⟩
      { S with env := { S.env with kept := S.env.kept.push x } }
  | check {t reply} : Performs S (.check t) ⟨reply, none⟩ S
  | address {t reply} : Performs S (.address t) ⟨reply, none⟩ S
  | create {target device threads reply} :
    Performs S (.create target device threads) reply
      { S with assemblers := S.assemblers.push { id := S.assemblers.size, target, device, threads } }
  | statement {i action a st o a'} (ha : S.assemblers[i]? = some a)
      (hst : S.statement? action = .ok (some st)) (hexec : a.exec st = .ok (o, a')) :
    Performs S (.act i action) ⟨replyOf o, some a'⟩
      { S.withAssembler i a' with env := keepVariable S.env o }
  | query {i action a} (ha : S.assemblers[i]? = some a) (hst : S.statement? action = .ok none) :
    Performs S (.act i action) ⟨(query a action).1, some (query a action).2⟩
      (S.withAssembler i (query a action).2)

theorem assembler_eq_ok : S.assembler i = .ok a ↔ S.assemblers[i]? = some a := by
  unfold assembler
  cases S.assemblers[i]? <;> simp

theorem act_of_statement {action : Action} {st : Statement} (ha : S.assemblers[i]? = some a)
    (hst : S.statement? action = .ok (some st)) : S.step (.act i action) =
      (a.exec st).map fun r =>
        (⟨replyOf r.1, some r.2⟩, { S.withAssembler i r.2 with env := keepVariable S.env r.1 }) := by
  simp only [step, act, assembler_eq_ok.mpr ha, hst, bind, Except.bind]
  cases a.exec st <;> rfl

theorem act_of_query {action : Action} (ha : S.assemblers[i]? = some a)
    (hst : S.statement? action = .ok none) : S.step (.act i action) =
      .ok (⟨(query a action).1, some (query a action).2⟩, S.withAssembler i (query a action).2) := by
  simp only [step, act, assembler_eq_ok.mpr ha, hst, bind, Except.bind]
  rfl

theorem performs_of_step (h : S.step step = .ok (answer, S')) : S.Performs step answer S' := by
  cases step with
  | keep t =>
    obtain ⟨x, hx, h⟩ := except_bind_eq_ok.mp h
    cases h
    exact .keep hx
  | check t =>
    obtain ⟨x, -, h⟩ := except_bind_eq_ok.mp h
    cases h
    exact .check
  | address t =>
    obtain ⟨x, -, h⟩ := except_bind_eq_ok.mp h
    cases h
    exact .address
  | create target device threads =>
    cases h
    exact .create
  | act i action =>
    have hact := h
    obtain ⟨a, ha, h⟩ := except_bind_eq_ok.mp h
    obtain ⟨st?, hst, -⟩ := except_bind_eq_ok.mp h
    rw [assembler_eq_ok] at ha
    cases st? with
    | none =>
      rw [act_of_query ha hst] at hact
      cases hact
      exact .query ha hst
    | some st =>
      rw [act_of_statement ha hst] at hact
      cases hexec : a.exec st with
      | error f =>
        rw [hexec] at hact
        cases hact
      | ok r =>
        rw [hexec] at hact
        cases hact
        exact .statement ha hst hexec

theorem replyOf_eq_variable {o : Outcome} {v : Variable} (h : replyOf o = .variable v) :
    o = .declared v := by
  cases o with
  | done => cases h
  | declared v' =>
    cases h
    rfl
  | value r => cases r <;> cases h

theorem withAssembler_get (ha : S.assemblers[i]? = some a) (a' : Assembler) :
    (S.withAssembler i a').assemblers[i]? = some a' := by
  have hi : i < S.assemblers.size := (Array.getElem?_eq_some_iff.mp ha).1
  simp [withAssembler, hi]

theorem withAssembler_get_ne {j : Nat} (hij : j ≠ i) (a' : Assembler) :
    (S.withAssembler j a').assemblers[i]? = S.assemblers[i]? := by
  simp [withAssembler, hij]

end Session

/-! ### What an event does to one assembler -/

/-- What an event does to an assembler that is there: make a statement, open a unit, close it, or
nothing. -/
inductive Event.Touches (e : Event) (i : Nat) (a : Assembler) : Assembler → Prop
  | statement {st o a'} (hst : e.statementOn? i = some st) (hexec : a.exec st = .ok (o, a'))
      (hreply : e.answer.reply = Session.replyOf o) (hopens : e.opens i = false) : Touches e i a a'
  | opening {a'} (hst : e.statementOn? i = none) (hbegin : a.begin = .ok a')
      (hopens : e.opens i = true) : Touches e i a a'
  | closing {order a'} (hst : e.statementOn? i = none) (hstep : e.step = .act i (.finish order))
      (hfinish : a.finish order = .ok a') (hopens : e.opens i = false) : Touches e i a a'
  | nothing (hst : e.statementOn? i = none) (hopens : e.opens i = false) : Touches e i a a

namespace Event

theorem declaredOn?_eq_some {v : Variable} : e.declaredOn? i = some v ↔
    ∃ t, e.step = .act i (.declare t) ∧ e.answer.reply = .variable v := by
  constructor
  · intro h
    unfold declaredOn? at h
    split at h
    · rename_i j t w hstep hreply
      split_ifs at h with hji
      cases h
      exact ⟨t, hji ▸ hstep, hreply⟩
    · cases h
  · rintro ⟨t, hstep, hreply⟩
    simp [declaredOn?, hstep, hreply]

theorem statementOn?_of_act {action : Action} {st? : Option Statement} (hstep : e.step = .act i action)
    (hst : e.pre.statement? action = .ok st?) : e.statementOn? i = st? := by
  simp only [statementOn?, hstep, hst, if_true]
  rfl

/-- The event makes no statement on the assembler and opens no unit of it. -/
theorem elsewhere (h : ∀ action, e.step ≠ .act i action) :
    e.statementOn? i = none ∧ e.opens i = false := by
  cases hstep : e.step with
  | act j action =>
    have hij : j ≠ i := fun hji => h action (hji ▸ hstep)
    refine ⟨by simp [statementOn?, hstep, hij], ?_⟩
    unfold opens
    split
    · simp_all
    · rfl
  | _ => simp [statementOn?, opens, hstep]

theorem opens_of_statement {action : Action} {st : Statement} (hstep : e.step = .act i action)
    (hst : e.pre.statement? action = .ok (some st)) : e.opens i = false := by
  unfold opens
  split
  · rename_i hbegin _
    rw [hstep] at hbegin
    cases hbegin
    cases hst
  · rfl

/-- An action that is no statement opens a unit, closes it, or leaves the assembler as it is. -/
theorem touches_query {action : Action} (hstep : e.step = .act i action)
    (hst : e.pre.statement? action = .ok none) (hreply : e.answer.reply = (Session.query a action).1) :
    e.Touches i a (Session.query a action).2 := by
  have hnone : e.statementOn? i = none := statementOn?_of_act hstep hst
  cases action with
  | begin =>
    cases hbegin : a.begin with
    | ok a' =>
      simp only [Session.query, hbegin] at hreply ⊢
      exact .opening hnone hbegin (by simp [opens, hstep, hreply])
    | error err =>
      simp only [Session.query, hbegin] at hreply ⊢
      exact .nothing hnone (by simp [opens, hstep, hreply])
  | finish order =>
    have hopens : e.opens i = false := by simp [opens, hstep]
    cases hfinish : a.finish order with
    | ok a' =>
      simp only [Session.query, hfinish]
      exact .closing hnone hstep hfinish hopens
    | error err =>
      simp only [Session.query, hfinish]
      exact .nothing hnone hopens
  | program | write =>
    have hnothing : e.Touches i a a := .nothing hnone (by simp [opens, hstep])
    simp only [Session.query]
    split <;> exact hnothing
  | _ => exact .nothing hnone (by simp [opens, hstep])

/-- An assembler that is there stays there, and the event does to it one of the four things. -/
theorem exists_touches (hstep : e.pre.step e.step = .ok (e.answer, e.post))
    (ha : e.pre.assemblers[i]? = some a) :
    ∃ a', e.post.assemblers[i]? = some a' ∧ e.Touches i a a' := by
  obtain ⟨pre, step, answer, post⟩ := e
  replace hstep : pre.step step = .ok (answer, post) := hstep
  replace ha : pre.assemblers[i]? = some a := ha
  have hsame : (∀ action, step ≠ .act i action) → post.assemblers[i]? = some a →
      ∃ a', post.assemblers[i]? = some a' ∧ Touches ⟨pre, step, answer, post⟩ i a a' := by
    intro hother hpost
    obtain ⟨hst, hopens⟩ := elsewhere (e := ⟨pre, step, answer, post⟩) hother
    exact ⟨a, hpost, .nothing hst hopens⟩
  cases Session.performs_of_step hstep with
  | keep hbuild => exact hsame nofun ha
  | check => exact hsame nofun ha
  | address => exact hsame nofun ha
  | create =>
    refine hsame nofun ?_
    have hi : i < pre.assemblers.size := (Array.getElem?_eq_some_iff.mp ha).1
    rw [Array.getElem?_push, if_neg (Nat.ne_of_lt hi)]
    exact ha
  | @statement j action a₁ st o a' ha₁ hst hexec =>
    by_cases hij : j = i
    · subst hij
      cases ha.symm.trans ha₁
      exact ⟨a', Session.withAssembler_get ha a',
        .statement (statementOn?_of_act rfl hst) hexec rfl (opens_of_statement rfl hst)⟩
    · refine hsame (by rintro _ ⟨⟩; exact hij rfl) ?_
      exact (Session.withAssembler_get_ne hij a').trans ha
  | @query j action a₁ ha₁ hst =>
    by_cases hij : j = i
    · subst hij
      cases ha.symm.trans ha₁
      exact ⟨_, Session.withAssembler_get ha _, touches_query rfl hst rfl⟩
    · refine hsame (by rintro _ ⟨⟩; exact hij rfl) ?_
      exact (Session.withAssembler_get_ne hij _).trans ha

/-- An event leaves the assembler its number, and its generation grows by one if a unit is opened. -/
theorem Touches.unit_eq {a' : Assembler} (h : e.Touches i a a') :
    a'.id = a.id ∧ a'.generation = a.generation + if e.opens i then 1 else 0 := by
  cases h with
  | statement hst hexec hreply hopens =>
    have hunit := (Assembler.exec_frame hexec).1
    simp only [Assembler.unit, UnitId.mk.injEq] at hunit
    simpa [hopens] using hunit
  | opening hst hbegin hopens =>
    unfold Assembler.begin at hbegin
    split_ifs at hbegin
    cases hbegin
    exact ⟨rfl, by rw [hopens]; rfl⟩
  | closing hst hfin hfinish hopens =>
    have hunit := Assembler.finish_unit hfinish
    simp only [Assembler.unit, UnitId.mk.injEq] at hunit
    simpa [hopens] using hunit
  | nothing hst hopens => simp [hopens]

end Event

namespace Trace

/-- The assembler is the same one all along, and its generation counts the units opened. -/
theorem generation_eq (h : Trace S events S') (ha : S.assemblers[i]? = some a) :
    ∃ a', S'.assemblers[i]? = some a' ∧ a'.id = a.id ∧
      a'.generation = a.generation + openings i events := by
  induction h generalizing a with
  | nil => exact ⟨a, ha, rfl, rfl⟩
  | @cons S e events S' hpre hstep rest ih =>
    subst hpre
    obtain ⟨a₁, ha₁, htouches⟩ := Event.exists_touches hstep ha
    obtain ⟨a', ha', hid, hgen⟩ := ih ha₁
    have hone := htouches.unit_eq
    refine ⟨a', ha', hid.trans hone.1, ?_⟩
    rw [hgen, hone.2, openings, openings, List.countP_cons]
    omega

end Trace

end ShaderIL.Script
