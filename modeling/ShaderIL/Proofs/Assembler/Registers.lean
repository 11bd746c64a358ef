import ShaderIL.Proofs.Assembler.Definedness
import ShaderIL.Proofs.Expr.Occurrence

/-!
# Ownership of registers

A register of a unit is taken by a statement, for the variable that the statement declares or for a
role of a node occurrence in one of its trees; `Owner` names which. The step lemmas say that the
registers a statement takes and the purposes it takes them for correspond (`Does.exists_purpose`,
`Does.purpose_unique`, `Step.Grants.within`). As the statements of a run take their registers one
after the other, every register of the unit has exactly one owner. `RegisterDiscipline` puts this
together with what the code may mention and where it may write.
-/

namespace ShaderIL

namespace Statement

/-- The tree a statement evaluates. -/
def value? : Statement → Option Expr
  | eval e | assign _ e | breakIf e | ifTrue e => some e
  | _ => none

/-- The overload of the value that writes the destination straight away. Its node takes no register. -/
def direct? : Statement → Option Overload
  | assign (some dst) e => dst.direct? e
  | _ => none

theorem value_of_word {st : Statement} {w : FlowWord} (h : st.word? = some w) : st.value? = none := by
  cases st with
  | whileLoop | endLoop | breakLoop | continueLoop | elseBranch | endIf => rfl
  | _ => cases h

theorem value_of_test {st : Statement} {t : FlowTest} {cond : Expr}
    (h : st.test? = some (t, cond)) : st.value? = some cond ∧ st.direct? = none := by
  cases st with
  | breakIf | ifTrue =>
    cases h
    exact ⟨rfl, rfl⟩
  | _ => cases h

end Statement

/-- The trees that a statement can emit. -/
inductive Root where
  | value
  | address
  deriving DecidableEq

namespace Step

/-- The tree that a step emits for a root, and the draft it is emitted from. The address of an element
comes after its value. -/
inductive Emits (t : Step) : Root → Expr → Draft → Prop
  | value {e} (he : t.statement.value? = some e) : Emits t .value e t.pre.draft
  | address {ty b offset e o d}
      (hst : t.statement = .assign (some (.element ty ⟨some b, offset⟩)) e)
      (hemit : e.emit t.pre.target t.pre.draft = .ok (o, d)) :
    Emits t .address b { d with usesGlobal := true }

/-- The occurrence at a path in the tree of a root. A value that writes the destination straight away
is left out itself. -/
def Occurs (t : Step) (root : Root) (path : List Nat) (w : Occurrence) : Prop :=
  ∃ e d, t.Emits root e d ∧ (root = .value → path = [] → t.statement.direct? = none) ∧
    e.Occurs t.pre.target path d w

end Step

/-- What a statement takes a register for: the variable it declares, or a node occurrence in one of its
trees. -/
inductive Purpose where
  | declaration
  | node (root : Root) (path : List Nat) (role : Role)

/-- The step takes the register for a purpose. -/
def Step.Grants (t : Step) : Purpose → Nat → Prop
  | .declaration, r => ∃ v h, t.declared? = some v ∧ v.home = some h ∧ h.register = r
  | .node root path role, r => ∃ w, t.Occurs root path w ∧ w.Owns role r

/-- An owner of registers in a run: a step, by its position, and a purpose. -/
structure Owner where
  step : Nat
  purpose : Purpose

/-- The register belongs to the owner. -/
def Owner.Owns (steps : List Step) (w : Owner) (r : Nat) : Prop :=
  ∃ t, steps[w.step]? = some t ∧ t.Grants w.purpose r

/-! ### The trees of a step -/

theorem Expr.opened_of_overload {e : Expr} {f : Overload} (hf : e.overload? = some f) (d : Draft) :
    e.opened d = d := by
  cases e with
  | element => cases hf
  | _ => rfl

namespace Step.Emits

variable {t : Step} {root : Root} {e e' : Expr} {d d' : Draft}

theorem unique (h : t.Emits root e d) (h' : t.Emits root e' d') : e = e' ∧ d = d' := by
  cases h with
  | value he =>
    obtain ⟨he'⟩ := h'
    rw [he] at he'
    cases he'
    exact ⟨rfl, rfl⟩
  | address hst hemit =>
    obtain _ | ⟨hst', hemit'⟩ := h'
    rw [hst] at hst'
    cases hst'
    rw [hemit] at hemit'
    cases hemit'
    exact ⟨rfl, rfl⟩

/-- The tree is one of the statement's, or the address in its destination. -/
theorem mem (h : t.Emits root e d) : ∃ x ∈ t.statement.exprs, e ∈ x.subterms := by
  cases h with
  | value he =>
    refine ⟨e, ?_, e.mem_subterms_self⟩
    cases hst : t.statement with
    | eval | breakIf | ifTrue =>
      rw [hst] at he
      cases he
      simp [Statement.exprs]
    | assign dst x =>
      rw [hst] at he
      cases he
      cases dst with
      | none => simp [Statement.exprs]
      | some dst => simp [Statement.exprs]
    | _ =>
      rw [hst] at he
      cases he
  | @address ty _ offset x o d1 hst hemit =>
    refine ⟨(LValue.element ty ⟨some e, offset⟩).toExpr, by simp [hst, Statement.exprs], ?_⟩
    simp [LValue.toExpr, Address.element, Expr.subterms, Expr.mem_subterms_self]

end Step.Emits

/-! ### What a step takes -/

/-- The registers that an accepted statement takes, up to a counter: one for a variable, none, those of
its value, those of the operands of its value, or those of its value and then of its address. -/
inductive Assembler.Takes (s : Assembler) (n : Nat) : Statement → Prop
  | declared {t} (hn : n = s.registers + 1) : Takes s n (.declare t)
  | nothing {st} (hvalue : st.value? = none) (hn : n = s.registers) : Takes s n st
  | value {st e o d} (hvalue : st.value? = some e) (hdirect : st.direct? = none)
      (hdst : ∀ t b offset x, st ≠ .assign (some (.element t ⟨some b, offset⟩)) x)
      (hemit : e.emit s.target s.draft = .ok (o, d)) (hn : n = d.next) : Takes s n st
  | operands {st e f args d} (hvalue : st.value? = some e) (hdirect : st.direct? = some f)
      (hargs : Expr.emitAll s.target e.children (e.opened s.draft) = .ok (args, d))
      (hn : n = d.next) : Takes s n st
  | address {t b offset e o d base d'} (hemit : e.emit s.target s.draft = .ok (o, d))
      (hbase : b.emit s.target { d with usesGlobal := true } = .ok (base, d'))
      (hn : n = d'.next) : Takes s n (.assign (some (.element t ⟨some b, offset⟩)) e)

namespace Assembler.Does

variable {s s' : Assembler} {st : Statement} {o : Outcome} {r : Nat}

theorem declared {t : ValueType} (h : Does s (.declare t) o s') :
    o = .declared ⟨t, some ⟨s.unit, s.registers⟩⟩ := by
  cases h with
  | declare => rfl
  | word hw => cases hw
  | test ht => cases ht

theorem of_declared {v : Variable} (h : Does s st (.declared v) s') : (∃ t, st = .declare t) ∧
    v.home = some ⟨s.unit, s.registers⟩ ∧ s'.registers = s.registers + 1 := by
  cases h with
  | declare => exact ⟨⟨_, rfl⟩, rfl, rfl⟩

theorem takes (h : Does s st o s') (hregular : st.Regular) : s.Takes s'.registers st := by
  have hacc := h.accepted hregular
  cases h with
  | declare ht => exact .declared rfl
  | comment => exact .nothing rfl rfl
  | word hw => exact .nothing (Statement.value_of_word hw) rfl
  | eval herr hemit => exact .value rfl rfl (by simp) hemit rfl
  | test ht herr htype hemit =>
    obtain ⟨hvalue, hdirect⟩ := Statement.value_of_test ht
    refine .value hvalue hdirect ?_ hemit rfl
    rintro t b offset x rfl
    cases ht
  | @assign dst e d herr hstore =>
    obtain ⟨-, -, htypes⟩ := LValue.assignErrors_eq_nil herr
    have hstores := LValue.stores (hacc e (by simp [Statement.exprs]))
      (hacc dst.toExpr (by simp [Statement.exprs])) htypes hstore
    cases hstores with
    | moved hD hemit hdirect =>
      refine .value rfl hdirect ?_ hemit rfl
      rintro t b offset x hst
      cases hst
      cases hD
    | direct hf _ _ _ hemit hdirect =>
      rw [← Expr.opened_of_overload hf s.draft] at hemit
      exact .operands rfl hdirect hemit rfl
    | elementAt hemit => exact .value rfl rfl (by simp) hemit rfl
    | element hemit hbase => exact .address hemit hbase rfl

end Assembler.Does

/-! ### The purposes of a step -/

/-- A step of a run over regular statements. -/
structure Step.Orderly (t : Step) : Prop where
  does : t.pre.Does t.statement t.outcome t.post
  regular : t.statement.Regular
  below : ∀ e ∈ t.statement.exprs, e.VarsBelow t.pre.registers

namespace Step

variable {t : Step} {root : Root} {p q : List Nat} {w w' : Occurrence} {r : Nat} {e : Expr} {d : Draft}

theorem Emits.accepted (ht : t.Orderly) (h : t.Emits root e d) : e.Accepted t.pre.unit := by
  obtain ⟨x, hx, he⟩ := h.mem
  exact Expr.of_mem_subterms Expr.Accepted.child (ht.does.accepted ht.regular x hx) he

theorem Emits.start_le (ht : t.Orderly) (h : t.Emits root e d) : t.pre.registers ≤ d.next := by
  cases h with
  | value => exact Nat.le_refl _
  | @address ty b offset e o d hst hemit =>
    have he : t.Emits .value e t.pre.draft := .value (by rw [hst]; rfl)
    have hle := (he.accepted ht).emit_le hemit
    exact hle

theorem Occurs.inside (ht : t.Orderly) (h : t.Occurs root p w) :
    ∃ e d d', t.Emits root e d ∧ e.Occurs t.pre.target p d w ∧
      Expr.Occurs.Inside t.pre.target t.pre.unit e d d' w := by
  obtain ⟨e, d, hemits, -, hocc⟩ := h
  have he := hemits.accepted ht
  obtain ⟨o, d', hemit, -⟩ := he.emit_ok t.pre.target d
  exact ⟨e, d, d', hemits, hocc, hocc.inside he hemit⟩

/-- The occurrences of a step lie between the counters before and after it. -/
theorem Occurs.within (ht : t.Orderly) (h : t.Occurs root p w) :
    t.pre.registers ≤ w.start.next ∧ w.post.next ≤ t.post.registers := by
  obtain ⟨e, d, hemits, hroot, hocc⟩ := h
  have he := hemits.accepted ht
  obtain ⟨o, d', hfull, -⟩ := he.emit_ok t.pre.target d
  refine ⟨(hemits.start_le ht).trans (hocc.inside he hfull).start_le, ?_⟩
  have htakes := ht.does.takes ht.regular
  cases hemits with
  | value hvalue =>
    generalize hst : t.statement = st at htakes hvalue hroot
    cases htakes with
    | declared => cases hvalue
    | nothing hnone =>
      rw [hnone] at hvalue
      cases hvalue
    | value hvalue' hdirect hdst hemit hn =>
      rw [hvalue'] at hvalue
      cases hvalue
      rw [hn]
      exact (hocc.inside he hemit).le_end
    | operands hvalue' hdirect hargs hn =>
      rw [hvalue'] at hvalue
      cases hvalue
      cases p with
      | nil =>
        rw [hroot rfl rfl] at hdirect
        cases hdirect
      | cons i p =>
        rw [hn]
        exact hocc.le_pre he hargs
    | address hemit hbase hn =>
      cases hvalue
      have hb := (Emits.address hst hemit).accepted ht
      have hle : _ ≤ _ := hb.emit_le hbase
      rw [hn]
      exact (hocc.inside he hemit).le_end.trans hle
  | address hst hemit =>
    rw [hst] at htakes
    cases htakes with
    | nothing hnone => cases hnone
    | value _ _ hdst => exact absurd rfl (hdst _ _ _ _)
    | operands _ hdirect => cases hdirect
    | address hemit' hbase hn =>
      rw [hemit] at hemit'
      cases hemit'
      rw [hn]
      exact (hocc.inside he hbase).le_end

/-- Every register that a step takes has a purpose. -/
theorem Orderly.exists_purpose (ht : t.Orderly) (hle : t.pre.registers ≤ r)
    (hlt : r < t.post.registers) : ∃ c, t.Grants c r := by
  have htakes := ht.does.takes ht.regular
  generalize hst : t.statement = st at htakes
  cases htakes with
  | declared hn =>
    have hdoes := ht.does
    rw [hst] at hdoes
    refine ⟨.declaration, _, _, by rw [declared?, hdoes.declared], rfl, ?_⟩
    change t.pre.registers = r
    omega
  | nothing hvalue hn => omega
  | @value _ e o d hvalue hdirect hdst hemit hn =>
    subst hst
    have hemits : t.Emits .value e t.pre.draft := .value hvalue
    obtain ⟨p, s, w, hocc, hw⟩ := (hemits.accepted ht).exists_owner hemit hle (hn ▸ hlt)
    exact ⟨.node .value p s, w, ⟨e, _, hemits, fun _ _ => hdirect, hocc⟩, hw⟩
  | @operands _ e f args d hvalue hdirect hargs hn =>
    subst hst
    have hemits : t.Emits .value e t.pre.draft := .value hvalue
    have he := hemits.accepted ht
    obtain ⟨o, d', hemit, -⟩ := he.emit_ok t.pre.target t.pre.draft
    obtain ⟨args', d1, k, is, hdone⟩ := he.emitted hemit
    have hchildren := hdone.children
    rw [hargs] at hchildren
    cases hchildren
    have hle' := hdone.finished.next
    obtain ⟨p, s, w, hocc, hw⟩ := he.exists_owner hemit hle (by omega)
    refine ⟨.node .value p s, w, ⟨e, _, hemits, fun _ hp => ?_, hocc⟩, hw⟩
    -- the registers of the root itself would come after those of its operands
    subst hp
    obtain ⟨-, -, hargs', -⟩ := hocc
    rw [hargs] at hargs'
    cases hargs'
    have hpre := hw.takes.1
    omega
  | @address ty b offset e o d base d' hemit hbase hn =>
    have hvalue : t.Emits .value e t.pre.draft := .value (by rw [hst]; rfl)
    have haddress := Emits.address hst hemit
    by_cases hr : r < d.next
    · obtain ⟨p, s, w, hocc, hw⟩ := (hvalue.accepted ht).exists_owner hemit hle hr
      exact ⟨.node .value p s, w, ⟨e, _, hvalue, fun _ _ => by rw [hst]; rfl, hocc⟩, hw⟩
    · obtain ⟨p, s, w, hocc, hw⟩ := (haddress.accepted ht).exists_owner hbase
        (Nat.le_of_not_lt hr) (hn ▸ hlt)
      exact ⟨.node .address p s, w, ⟨b, _, haddress, by simp, hocc⟩, hw⟩

theorem declared?_spec (ht : t.Orderly) {v : Variable} (hv : t.declared? = some v) :
    (∃ ty, t.statement = .declare ty) ∧ v.home = some ⟨t.pre.unit, t.pre.registers⟩ ∧
      t.post.registers = t.pre.registers + 1 := by
  have houtcome : t.outcome = .declared v := by
    unfold declared? at hv
    split at hv
    · rename_i u hu
      cases hv
      exact hu
    · cases hv
  have hdoes := ht.does
  rw [houtcome] at hdoes
  exact hdoes.of_declared

theorem Grants.within (ht : t.Orderly) {c : Purpose} (h : t.Grants c r) :
    t.pre.registers ≤ r ∧ r < t.post.registers := by
  cases c with
  | declaration =>
    obtain ⟨v, home, hv, hh, rfl⟩ := h
    obtain ⟨-, hhome, hpost⟩ := declared?_spec ht hv
    rw [hh] at hhome
    cases hhome
    change _ ≤ t.pre.registers ∧ t.pre.registers < _
    omega
  | node root p s =>
    obtain ⟨w, hocc, hw⟩ := h
    obtain ⟨h₁, h₂⟩ := hocc.within ht
    obtain ⟨h₃, h₄⟩ := hw.takes
    obtain ⟨_, _, _, -, -, hin⟩ := hocc.inside ht
    have h₅ := hin.pre_le
    omega

theorem Emits.declared?_ne (ht : t.Orderly) (h : t.Emits root e d) (v : Variable) :
    t.declared? ≠ some v := by
  intro hv
  obtain ⟨⟨ty, hst⟩, -⟩ := declared?_spec ht hv
  cases h with
  | value hvalue =>
    rw [hst] at hvalue
    cases hvalue
  | address hst' =>
    rw [hst] at hst'
    cases hst'

theorem Occurs.value_before_address (ht : t.Orderly) (h : t.Occurs .value p w)
    (h' : t.Occurs .address q w') : w.post.next ≤ w'.start.next := by
  obtain ⟨e, d, _, hemits, hocc, -⟩ := h.inside ht
  obtain ⟨b, d', _, hemits', -, hin'⟩ := h'.inside ht
  cases hemits' with
  | address hst hemit =>
    obtain ⟨rfl, rfl⟩ := hemits.unique (.value (by rw [hst]; rfl))
    have hend := (hocc.inside (hemits.accepted ht) hemit).le_end
    exact hend.trans hin'.start_le

/-- A register has one purpose. -/
theorem Grants.purpose_unique (ht : t.Orderly) {c c' : Purpose} (h : t.Grants c r)
    (h' : t.Grants c' r) : c = c' := by
  cases c with
  | declaration =>
    cases c' with
    | declaration => rfl
    | node root p s =>
      obtain ⟨v, -, hv, -⟩ := h
      obtain ⟨w, ⟨e, d, hemits, -⟩, -⟩ := h'
      exact absurd hv (hemits.declared?_ne ht v)
  | node root p s =>
    obtain ⟨w, hocc, hw⟩ := h
    cases c' with
    | declaration =>
      obtain ⟨v, -, hv, -⟩ := h'
      obtain ⟨e, d, hemits, -⟩ := hocc
      exact absurd hv (hemits.declared?_ne ht v)
    | node root' p' s' =>
      obtain ⟨w', hocc', hw'⟩ := h'
      have hroot : root = root' := by
        by_contra hne
        obtain ⟨h₁, h₂⟩ := hw.takes
        obtain ⟨h₃, h₄⟩ := hw'.takes
        obtain ⟨_, _, _, -, -, hin⟩ := hocc.inside ht
        obtain ⟨_, _, _, -, -, hin'⟩ := hocc'.inside ht
        have h₅ := hin.pre_le
        have h₆ := hin'.pre_le
        cases root with
        | value =>
          cases root' with
          | value => exact hne rfl
          | address =>
            have := hocc.value_before_address ht hocc'
            omega
        | address =>
          cases root' with
          | value =>
            have := hocc'.value_before_address ht hocc
            omega
          | address => exact hne rfl
      subst hroot
      obtain ⟨e, d, hemits, -, hocc⟩ := hocc
      obtain ⟨e', d', hemits', -, hocc'⟩ := hocc'
      obtain ⟨rfl, rfl⟩ := hemits.unique hemits'
      obtain ⟨rfl, rfl⟩ := hocc.owner_unique hw hocc' hw' (hemits.accepted ht)
      rfl

end Step

/-! ### The lines of a step -/

/-- The lines of a step mention registers below the counter after it. -/
theorem Assembler.Does.mentions {s s' : Assembler} {st : Statement} {o : Outcome}
    (h : Does s st o s') (hregular : st.Regular) (hbelow : ∀ e ∈ st.exprs, e.VarsBelow s.registers) :
    ∀ line ∈ Step.lines ⟨s, st, o, s'⟩, ∀ r, line.Mentions r → r < s'.registers := by
  have hacc := h.accepted hregular
  have hcode : ∀ {is : List Instruction} {n : Nat}, MentionsBelow n is →
      ∀ line ∈ is.map Line.instruction, ∀ r, line.Mentions r → r < n := by
    intro is n his line hline r hr
    obtain ⟨i, hi, rfl⟩ := List.mem_map.mp hline
    exact his i hi r hr
  cases h with
  | declare =>
    rw [Step.lines_eq (l := []) (by simp)]
    simp
  | @comment text =>
    rw [Step.lines_eq (l := [.comment text]) (by simp)]
    simp [Line.Mentions]
  | @word _ w flow =>
    rw [Step.lines_eq (l := [.word w]) (by simp [writeLine])]
    simp [Line.Mentions]
  | @eval e c d herr hemit =>
    have he : e ∈ (Statement.eval e).exprs := by simp [Statement.exprs]
    obtain ⟨is, his, hbound⟩ := (hacc e he).emit_bounded hemit
    rw [Step.lines_eq his.code]
    exact hcode (hbound (hregular e he).2 (hbelow e he)).1
  | @test _ k cond c d flow ht herr htype hemit =>
    have he : cond ∈ st.exprs := by simp [Statement.exprs_of_test ht]
    obtain ⟨is, his, hbound⟩ := (hacc cond he).emit_bounded hemit
    obtain ⟨hi, ho⟩ := hbound (hregular cond he).2 (hbelow cond he)
    rw [Step.lines_eq (l := is.map .instruction ++ [.test k c.source])
      (by simp [writeLine, his.code])]
    intro line hline r hr
    rcases List.mem_append.mp hline with hline | hline
    · exact hcode hi line hline r hr
    · rw [List.mem_singleton.mp hline] at hr
      exact ho r hr
  | @assign dst e d herr hstore =>
    have he : e ∈ (Statement.assign (some dst) e).exprs := by simp [Statement.exprs]
    have hdst : dst.toExpr ∈ (Statement.assign (some dst) e).exprs := by simp [Statement.exprs]
    obtain ⟨-, -, htypes⟩ := LValue.assignErrors_eq_nil herr
    have hstores := LValue.stores (hacc e he) (hacc _ hdst) htypes hstore
    obtain ⟨is, his, hbound⟩ := hstores.bounded (hacc e he) (hacc _ hdst) (hregular e he).2
      (hregular _ hdst).2 (hbelow e he) (hbelow _ hdst)
    rw [Step.lines_eq his.code]
    exact hcode hbound

/-- A line of a step that writes a register taken before it writes what the statement assigns. -/
theorem Step.Shape.destination {t : Step} {is : List Instruction} {tail : List Line}
    (h : t.Shape is tail) {i : Instruction} (hi : .instruction i ∈ t.lines) {r : Nat}
    (hplace : i.dst.place = .temp r) (hr : r < t.pre.registers) :
    ∃ D, t.statement.assigned? = some D ∧ D.place = .temp r ∧
      ∀ l, i.dst.mask.has l = true → D.mask.has l = true := by
  rw [h.lines, List.mem_append] at hi
  rcases hi with hi | hi
  · obtain ⟨j, hj, hji⟩ := List.mem_map.mp hi
    cases hji
    cases h.writes i hj with
    | fresh hplace' hle =>
      rw [hplace] at hplace'
      cases hplace'
      omega
    | assigned hD hplace' hmask => exact ⟨_, hD, hplace'.symm.trans hplace, hmask⟩
    | memory hmemory => exact absurd hplace (hmemory r)
  · exact absurd hi (h.tail_plain i)

/-! ### Runs -/

namespace Run

variable {s₀ start s : Assembler} {steps : List Step} {t t' : Step} {r k k' : Nat}

theorem orderly (hbegin : s₀.begin = .ok start) (h : Run start steps s)
    (hregular : ∀ t ∈ steps, t.statement.Regular) (ht : t ∈ steps) : t.Orderly := by
  have hreg := hregular t ht
  obtain ⟨before, after, rfl⟩ := List.append_of_mem ht
  have hdoes := h.split_does hbegin
  obtain ⟨hbefore, hvars, -⟩ := h.split
  refine ⟨hdoes, hreg, fun e he => hbefore.varsBelow hbegin (hdoes.accepted hreg e he) ?_⟩
  exact fun v hv => hvars v (List.mem_flatMap.mpr ⟨e, he, hv⟩)

theorem exists_step (hbegin : s₀.begin = .ok start) (h : Run start steps s)
    (hr : r < s.registers) :
    ∃ (k : Nat) (t : Step), steps[k]? = some t ∧ t.pre.registers ≤ r ∧ r < t.post.registers := by
  induction h with
  | nil =>
    have hempty : start.registers = 0 := by
      rw [Assembler.registers, (Assembler.begin_spec hbegin).2.2]
    omega
  | @snoc steps s st o s' h hvars hexec hok ih =>
    by_cases hlt : r < s.registers
    · obtain ⟨k, t, hk, ht⟩ := ih hlt
      obtain ⟨hk', -⟩ := List.getElem?_eq_some_iff.mp hk
      exact ⟨k, t, by rw [List.getElem?_append_left hk', hk], ht⟩
    · exact ⟨steps.length, ⟨s, st, o, s'⟩, by simp, Nat.le_of_not_lt hlt, hr⟩

theorem registers_order (hbegin : s₀.begin = .ok start) (h : Run start steps s)
    (ht : steps[k]? = some t) (ht' : steps[k']? = some t') (hk : k < k') :
    t.post.registers ≤ t'.pre.registers := by
  obtain ⟨hlen, rfl⟩ := List.getElem?_eq_some_iff.mp ht'
  rw [← List.take_append_drop k' steps, List.drop_eq_getElem_cons hlen] at h
  obtain ⟨hbefore, -⟩ := h.split
  have hmem : t ∈ steps.take k' := by
    refine List.mem_of_getElem? (i := k) ?_
    rw [List.getElem?_take_of_lt hk, ht]
  exact (hbefore.registers_le hbegin t hmem).2

/-- Every register of a unit has one owner. -/
theorem exists_unique_owner (hbegin : s₀.begin = .ok start) (h : Run start steps s)
    (horderly : ∀ t ∈ steps, t.Orderly) (hr : r < s.registers) :
    ∃! w : Owner, w.Owns steps r := by
  obtain ⟨k, t, hk, hle, hlt⟩ := h.exists_step hbegin hr
  have ht := horderly t (List.mem_of_getElem? hk)
  obtain ⟨c, hc⟩ := ht.exists_purpose hle hlt
  refine ⟨⟨k, c⟩, ⟨t, hk, hc⟩, ?_⟩
  rintro ⟨k', c'⟩ ⟨t', hk', hc'⟩
  obtain ⟨hle', hlt'⟩ := hc'.within (horderly t' (List.mem_of_getElem? hk'))
  -- steps at other positions take registers before or after those of this one
  obtain rfl : k' = k := by
    rcases Nat.lt_trichotomy k' k with hkk | hkk | hkk
    · have := h.registers_order hbegin hk' hk hkk
      omega
    · exact hkk
    · have := h.registers_order hbegin hk hk' hkk
      omega
  rw [hk] at hk'
  cases hk'
  exact congrArg (Owner.mk k') (hc'.purpose_unique ht hc)

end Run

theorem Assembler.fail_registers (s : Assembler) (r : Report) :
    (s.fail r).registers = s.registers := by
  unfold fail
  split_ifs
  · rfl
  · rfl

theorem Assembler.registers_finish {s s' : Assembler} {order : Traversal}
    (h : s.finish order = .ok s') :
    s'.registers = s.registers := by
  have hfold : ∀ (es : List Error) (s : Assembler),
      (es.foldl failWith s).registers = s.registers := by
    intro es
    induction es with
    | nil => exact fun _ => rfl
    | cons e es ih => exact fun s => (ih _).trans (s.fail_registers _)
  unfold finish at h
  split_ifs at h
  cases h
  exact hfold _ s

/-! ### The discipline -/

theorem Line.mentions_flattened (l : Line) : l.flattened.Mentions = l.Mentions := by
  cases l <;> rfl

theorem Step.instruction_mem_printed {t : Step} {i : Instruction} :
    Line.instruction i ∈ t.printed ↔ Line.instruction i ∈ t.lines := by
  constructor
  · intro h
    obtain ⟨l, hl, hli⟩ := List.mem_map.mp h
    cases l with
    | instruction j => rwa [← hli]
    | comment | word | test => cases hli
  · exact fun h => List.mem_map.mpr ⟨_, h, rfl⟩

/-- The own part of an operation node: the register `n` for its result, and the next ones for scratch.
Everything that its operands mention lies below. -/
structure Occurrence.ResultAt (w : Occurrence) (f : Overload) (n : Nat) : Prop where
  operand : w.operand = .ofType (.temp n) f.result
  owns : ∀ r, w.Owns .result r ↔ r = n
  scratch : w.scratch = List.range' (n + 1) f.scratch
  code : w.post.code.toList =
    w.pre.code.toList ++ (f.lines w.operand w.args (n + 1)).map Line.instruction
  args : ∀ a ∈ w.args, ∀ r, a.place.Mentions r → r < n
  lines : ∀ line ∈ w.operandLines, ∀ r, line.Mentions r → r < n

/-- How a unit uses its registers. -/
structure RegisterDiscipline (steps : List Step) (s : Assembler) : Prop where
  /-- Every register has exactly one owner. -/
  owner : ∀ r < s.registers, ∃! w : Owner, w.Owns steps r
  owned : ∀ (w : Owner) (r : Nat), w.Owns steps r → r < s.registers
  /-- The text of the code is the lines of the steps, and no other register stands there. -/
  code : ∀ order, ∃ s', s.finish order = .ok s' ∧
    Line.readAll? s'.code = some (steps.flatMap Step.printed)
  mentions : ∀ t ∈ steps, ∀ line ∈ t.printed, ∀ r, line.Mentions r → r < s.registers
  /-- The counter never goes back. -/
  counter : ∀ before t after, steps = before ++ t :: after →
    t.pre.registers ≤ t.post.registers ∧ ∀ u ∈ before, u.post.registers ≤ t.pre.registers
  closing : ∀ order s', s.finish order = .ok s' → s'.registers = s.registers
  /-- Operands of one node take different registers. -/
  siblings : ∀ t ∈ steps, ∀ root p i j w w', t.Occurs root (p ++ [i]) w →
    t.Occurs root (p ++ [j]) w' → i ≠ j → ∀ r, w.Allocates r → ¬ w'.Allocates r
  /-- The result of an operation comes after what its operands read and take, and before its
  scratch. -/
  results : ∀ t ∈ steps, ∀ root p w f, t.Occurs root p w → w.node.overload? = some f →
    ∃ n, w.ResultAt f n ∧ ∀ i x, t.Occurs root (p ++ [i]) x → ∀ r, x.Allocates r → r < n
  /-- Earlier registers are written by assignments to their variables only. -/
  destinations : ∀ t ∈ steps, ∀ i, Line.instruction i ∈ t.printed → ∀ r < t.pre.registers,
    i.dst.place = .temp r → ∃ dst e D, t.statement = .assign (some dst) e ∧
      dst.operand? = some D ∧ D.place = .temp r ∧ ∀ l, i.dst.mask.has l = true → D.mask.has l = true

/-- An operation node of a step takes its result register after what its operands mention. -/
theorem Step.Occurs.resultAt {t : Step} (ht : t.Orderly) {root : Root} {p : List Nat}
    {w : Occurrence} {f : Overload} (h : t.Occurs root p w) (hf : w.node.overload? = some f) :
    w.ResultAt f w.pre.next := by
  obtain ⟨e, d, d', hemits, hocc, hin⟩ := h.inside ht
  obtain ⟨k, is, hdone⟩ := hin.emitted
  obtain ⟨hoperand, hk, his⟩ := hdone.finished.form.of_overload hf
  have hcode := hdone.finished.code
  rw [his] at hcode
  have hpost : w.post.next = w.pre.next + (1 + f.scratch) := by rw [hdone.finished.next, hk]
  have hplace : w.operand.place = .temp w.pre.next := by
    rw [hoperand]
    rfl
  obtain ⟨x, hx, hmem⟩ := hemits.mem
  have hext := Expr.of_mem_subterms Expr.ExternalFree.child (ht.regular x hx).2 hmem
  have hvars := Expr.of_mem_subterms Expr.VarsBelow.child (ht.below x hx) hmem
  obtain ⟨hargs, hlines⟩ := hocc.operands_below (hemits.accepted ht) hext
    (hvars.mono (hemits.start_le ht))
  refine ⟨hoperand, fun r => ⟨fun ⟨_, hr⟩ => ?_, ?_⟩, w.scratch_eq hplace hpost, hcode, hargs,
    hlines⟩
  · rw [hplace] at hr
    cases hr
    rfl
  · rintro rfl
    exact ⟨⟨Nat.le_refl _, by omega⟩, hplace⟩

/-- **Registers of a unit.** In every run of accepted statements over canonical trees, each register has
one owner, the code stays below the counter, and nothing writes a register of an earlier statement but
an assignment to its variable. -/
theorem Run.registers_disciplined {s₀ start s : Assembler} {steps : List Step}
    (hbegin : s₀.begin = .ok start) (hrun : Run start steps s)
    (hcanonical : ∀ t ∈ steps, t.statement.Canonical) : RegisterDiscipline steps s := by
  have hregular : ∀ t ∈ steps, t.statement.Regular := fun t ht => (hcanonical t ht).regular
  have horderly : ∀ t ∈ steps, t.Orderly := fun t ht => hrun.orderly hbegin hregular ht
  have hend : ∀ t ∈ steps, t.post.registers ≤ s.registers :=
    fun t ht => (hrun.registers_le hbegin t ht).2
  refine ⟨fun r hr => hrun.exists_unique_owner hbegin horderly hr, ?_,
    hrun.readAll?_code hbegin fun t ht e he => (hcanonical t ht e he).2,
    fun t ht line hline r hr => ?_, ?_, fun order s' hs' => Assembler.registers_finish hs', ?_, ?_, ?_⟩
  · rintro w r ⟨t, hk, hc⟩
    have ht := List.mem_of_getElem? hk
    exact Nat.lt_of_lt_of_le (hc.within (horderly t ht)).2 (hend t ht)
  · obtain ⟨l, hl, rfl⟩ := List.mem_map.mp hline
    rw [Line.mentions_flattened] at hr
    have hdoes := (horderly t ht).does.mentions (hregular t ht) (horderly t ht).below
    exact Nat.lt_of_lt_of_le (hdoes l hl r hr) (hend t ht)
  · rintro before t after rfl
    refine ⟨(hrun.registers_le hbegin t (by simp)).1, fun u hu => ?_⟩
    exact (hrun.split.1.registers_le hbegin u hu).2
  · rintro t ht root p i j w w' ⟨e, d, hemits, -, hocc⟩ ⟨e', d', hemits', -, hocc'⟩ hij r hr
    obtain ⟨rfl, rfl⟩ := hemits.unique hemits'
    exact hocc.siblings_disjoint hocc' (hemits.accepted (horderly t ht)) hij hr
  · intro t ht root p w f hocc hf
    refine ⟨w.pre.next, hocc.resultAt (horderly t ht) hf, ?_⟩
    obtain ⟨e, d, hemits, -, hocc⟩ := hocc
    rintro i x ⟨e', d', hemits', -, hocc'⟩ r hr
    obtain ⟨rfl, rfl⟩ := hemits.unique hemits'
    exact hocc.operand_below hocc' (hemits.accepted (horderly t ht)) hr
  · intro t ht i hi r hr hplace
    obtain ⟨is, tail, hshape⟩ := (horderly t ht).does.shape (hregular t ht)
    obtain ⟨D, hD, hDplace, hmask⟩ :=
      hshape.destination (Step.instruction_mem_printed.mp hi) hplace hr
    obtain ⟨dst, e, hst, hD⟩ := Statement.exists_of_assigned hD
    exact ⟨dst, e, D, hst, hD, hDplace, hmask⟩

/-- The premises can be met by a node that is reached twice: each of its occurrences has a register of
its own, the remainder of the two has one more, and one for scratch. -/
theorem registers_of_shared_sum :
    let v : Variable := ⟨.float1, some ⟨⟨0, 1⟩, 0⟩⟩
    let sum : Expr := .binary .add (.var v) (.var v)
    let start : Assembler := { phase := .building, generation := 1 }
    let s : Assembler := { start with draft := { next := 1 } }
    ∃ o s', s.exec (.eval (.binary .mod sum sum)) = .ok (o, s') ∧ s'.registers = 5 ∧
      RegisterDiscipline [⟨start, .declare .float1, .declared v, s⟩,
        ⟨s, .eval (.binary .mod sum sum), o, s'⟩] s' := by
  intro v sum start s
  have hbegin : ({} : Assembler).begin = .ok start := rfl
  obtain ⟨o, s', hexec, hreport, hregisters⟩ : ∃ o s', s.exec (.eval (.binary .mod sum sum)) =
      .ok (o, s') ∧ s'.report = none ∧ s'.registers = 5 := ⟨_, _, rfl, rfl, rfl⟩
  have hvars : ∀ u ∈ (Statement.eval (.binary .mod sum sum)).vars, u = v := by
    simp [Statement.vars, Statement.exprs, Expr.vars, Expr.subterms, sum]
  have hdeclare : Run start [⟨start, .declare .float1, .declared v, s⟩] s :=
    .snoc .nil (by simp [Statement.vars, Statement.exprs]) rfl rfl
  have hrun := hdeclare.snoc (fun u hu _ => by
    rw [hvars u hu]
    simp [declaredBy, Step.declared?]) hexec hreport
  have htree : (Expr.binary .mod sum sum).WellTyped ∧ (Expr.binary .mod sum sum).Canonical := by
    refine ⟨fun x hx => ?_, ⟨fun t text => by simp [Expr.subterms, sum], by simp [Expr.subterms, sum]⟩⟩
    simp only [Expr.subterms, List.mem_cons, List.mem_append, List.not_mem_nil, or_false, sum] at hx
    rcases hx with rfl | (rfl | rfl | rfl) | rfl | rfl | rfl <;> decide +kernel
  refine ⟨o, s', hexec, hregisters, Run.registers_disciplined hbegin hrun ?_⟩
  simp [Statement.Canonical, Statement.exprs, htree]

/-- A field whose lanes are no pattern is accepted, and its text brings in a register that the unit does
not have: one is taken, and the code has a source that is another. -/
theorem stray_lanes_beyond_counter :
    let v : Variable := ⟨.float1, some ⟨⟨0, 1⟩, 0⟩⟩
    let start : Assembler := { phase := .building, generation := 1 }
    let field : BufferField := ⟨0, 1, 0, .float1, some "],r99.x"⟩
    ∃ s f, ({} : Assembler).begin = .ok start ∧
      start.execAll [.declare .float1, .assign (some (.var v)) (.field field)] =
        .ok ([.declared v, .done], s) ∧ s.finish = .ok f ∧ f.report = none ∧
      (Statement.assign (some (.var v)) (.field field)).Regular ∧ f.registers = 1 ∧
      f.code = "mov " ++ ",".intercalate ["r0.x___", "cb0[0].]", "r99.x"] ++ "\nend\n" ∧
      SourceOperand.read? "r99.x".toList = some ⟨.temp 99, ⟨[.x]⟩, .plain⟩ := by
  intro v start field
  have hexec : start.execAll [.declare .float1, .assign (some (.var v)) (.field field)] =
      .ok ([.declared v, .done], Assembler.strayed "r99") :=
    Assembler.execAll_cons_ok.mpr ⟨_, _, [.done], rfl,
      Assembler.execAll_cons_ok.mpr ⟨_, _, [], Assembler.exec_stray "r99", rfl, rfl⟩, rfl⟩
  exact ⟨_, _, rfl, hexec, Assembler.finish_strayed "r99", rfl, stray_regular "r99", rfl,
    by decide +kernel, by decide +kernel⟩

end ShaderIL
