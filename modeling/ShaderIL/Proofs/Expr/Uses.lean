import ShaderIL.Expr.Store
import ShaderIL.Proofs.Assembler.Tables
import ShaderIL.Proofs.Expr.Emission
import ShaderIL.Proofs.Operation.References

/-!
# The tables and the code of a tree

`Expr.uses` lists what emission of a tree enters in the tables, in order. Whenever a tree or an
assignment is emitted, whether or not it has a type everywhere:

* the tables are the old ones with the uses entered in order (`Emission.tables`),
* the new lines and the operand refer only to entries made by the uses (`Emission.lines`), an element
  within the size that was entered, a literal to its own pattern,
* and every use of an input, of the global buffer or of the window position shows in a line
  (`Shows`).
-/

namespace ShaderIL

/-- The reference by which a use shows in the code. A literal or an element may be used without any
code. -/
def Use.reference? : Use → Option Reference
  | input slot _ => some (.input slot)
  | global => some .global
  | position => some .position
  | literal _ | buffer _ _ => none

namespace Reference

variable {us vs : List Use} {table table' : LiteralTable} {r : Reference}

/-- The uses and the literal table have what the reference needs. -/
def CoveredBy (us : List Use) (table : LiteralTable) : Reference → Prop
  | literal i => ∃ bits, .literal bits ∈ us ∧ table.numbers.lookup bits = some i
  | element slot index => ∃ size, .buffer slot size ∈ us ∧ 0 ≤ index ∧ index < size
  | input slot => ∃ t, .input slot t ∈ us
  | global => .global ∈ us
  | position => .position ∈ us

theorem CoveredBy.mono (h : r.CoveredBy us table) (hus : us ⊆ vs) (hgrow : table.Grows table') :
    r.CoveredBy vs table' := by
  cases r with
  | literal i =>
    obtain ⟨bits, hbits, hi⟩ := h
    exact ⟨bits, hus hbits, hgrow.lookup hi⟩
  | element slot index =>
    obtain ⟨size, hsize, hindex⟩ := h
    exact ⟨size, hus hsize, hindex⟩
  | input slot =>
    obtain ⟨t, ht⟩ := h
    exact ⟨t, hus ht⟩
  | global => exact hus h
  | position => exact hus h

theorem coveredBy_of_reference {u : Use} (hu : u ∈ us) (h : u.reference? = some r) :
    r.CoveredBy us table := by
  cases u with
  | input slot t =>
    cases h
    exact ⟨t, hu⟩
  | global | position =>
    cases h
    exact hu
  | literal | buffer => cases h

end Reference

/-- Every use that shows in code shows in the instructions. -/
def Shows (us : List Use) (is : List Instruction) : Prop :=
  ∀ u ∈ us, ∀ r, u.reference? = some r → ∃ i ∈ is, r ∈ i.references

namespace Shows

theorem nil (is : List Instruction) : Shows [] is := by simp [Shows]

theorem single {u : Use} {r : Reference} {i : Instruction} (hu : u.reference? = some r)
    (hr : r ∈ i.references) : Shows [u] [i] := by
  intro v hv r' hr'
  rw [List.mem_singleton.mp hv, hu] at hr'
  cases hr'
  exact ⟨i, List.mem_singleton_self _, hr⟩

theorem append {us vs : List Use} {is js : List Instruction} (h : Shows us is) (h' : Shows vs js) :
    Shows (us ++ vs) (is ++ js) := by
  intro u hu r hr
  rcases List.mem_append.mp hu with hu | hu
  · obtain ⟨i, hi, hri⟩ := h u hu r hr
    exact ⟨i, List.mem_append_left _ hi, hri⟩
  · obtain ⟨i, hi, hri⟩ := h' u hu r hr
    exact ⟨i, List.mem_append_right _ hi, hri⟩

theorem mono {us vs : List Use} {is js : List Instruction} (h : Shows us is) (hus : vs ⊆ us)
    (his : is ⊆ js) : Shows vs js := by
  intro u hu r hr
  obtain ⟨i, hi, hri⟩ := h u (hus hu) r hr
  exact ⟨i, his hi, hri⟩

end Shows

/-- An emission took one draft to another: it entered uses, appended instructions and returned
operands. Lines and operands refer to what was given to it or to what it entered. -/
structure Emission (given : List Reference) (us : List Use) (d : Draft) (os : List Operand) (d' : Draft)
    (is : List Instruction) : Prop where
  tables : d'.tables = d.tables.noteAll us
  code : d'.code.toList = d.code.toList ++ is.map Line.instruction
  lines : ∀ i ∈ is, ∀ r ∈ i.references, r ∈ given ∨ r.CoveredBy us d'.literals
  operands : ∀ o ∈ os, ∀ r ∈ o.place.references, r ∈ given ∨ r.CoveredBy us d'.literals

namespace Emission

variable {given given' : List Reference} {us vs : List Use} {d d₁ d₂ d' : Draft}
  {os os' : List Operand} {is js : List Instruction}

theorem mono (h : Emission given us d os d' is) (hg : given ⊆ given') : Emission given' us d os d' is :=
  ⟨h.tables, h.code, fun i hi r hr => (h.lines i hi r hr).imp_left fun hr => hg hr,
    fun o ho r hr => (h.operands o ho r hr).imp_left fun hr => hg hr⟩

theorem literals_grow (h : Emission given us d os d' is) : d.literals.Grows d'.literals := by
  have hl := congrArg Draft.literals h.tables
  change d'.literals = (d.tables.noteAll us).literals at hl
  rw [hl]
  exact d.tables.literals_grow_noteAll us

theorem given_only (d : Draft) (n : Nat) (hlines : ∀ i ∈ is, i.references ⊆ given)
    (hos : ∀ o ∈ os, o.place.references ⊆ given) :
    Emission given [] d os ((d.taken n).appended is) is :=
  ⟨rfl, Draft.appended_code_toList _ is, fun i hi _ hr => .inl (hlines i hi hr),
    fun o ho _ hr => .inl (hos o ho hr)⟩

theorem refl (d : Draft) (hos : ∀ o ∈ os, o.place.references ⊆ given) :
    Emission given [] d os d [] :=
  ⟨rfl, by simp, by simp, fun o ho r hr => .inl (hos o ho hr)⟩

theorem note (given : List Reference) (d : Draft) (u : Use) : Emission given [u] d [] (d.note u) [] :=
  ⟨d.tables_note u, by cases u <;> simp [Draft.note], by simp, by simp⟩

theorem noted {o : Operand} {u : Use} (given : List Reference) (d : Draft)
    (ho : ∀ r ∈ o.place.references, r.CoveredBy [u] (d.note u).literals) :
    Emission given [u] d [o] (d.note u) [] :=
  ⟨(note given d u).tables, (note given d u).code, by simp, fun x hx r hr =>
    .inr (ho r (List.mem_singleton.mp hx ▸ hr))⟩

/-- An emission that is given the operands and the entries of the one before it. The operands of
both are kept. -/
theorem append (h : Emission given us d os d₁ is)
    (h' : Emission (given ++ os.flatMap (fun o => o.place.references) ++ us.filterMap Use.reference?)
      vs d₁ os' d₂ js) :
    Emission given (us ++ vs) d (os ++ os') d₂ (is ++ js) := by
  have hgrow := h'.literals_grow
  have hfirst : ∀ r : Reference, r ∈ given ∨ r.CoveredBy us d₁.literals →
      r ∈ given ∨ r.CoveredBy (us ++ vs) d₂.literals := fun r hr =>
    hr.imp_right fun hr => hr.mono (List.subset_append_left _ _) hgrow
  have hsecond : ∀ r : Reference,
      r ∈ given ++ os.flatMap (fun o => o.place.references) ++ us.filterMap Use.reference? ∨
        r.CoveredBy vs d₂.literals →
      r ∈ given ∨ r.CoveredBy (us ++ vs) d₂.literals := by
    rintro r (hr | hr)
    · rcases List.mem_append.mp hr with hr | hr
      · rcases List.mem_append.mp hr with hr | hr
        · exact .inl hr
        · obtain ⟨o, ho, hr⟩ := List.mem_flatMap.mp hr
          exact hfirst r (h.operands o ho r hr)
      · obtain ⟨u, hu, hur⟩ := List.mem_filterMap.mp hr
        exact .inr (Reference.coveredBy_of_reference (List.mem_append_left _ hu) hur)
    · exact .inr (hr.mono (List.subset_append_right _ _) (.refl _))
  refine ⟨?_, ?_, fun i hi r hr => ?_, fun o ho r hr => ?_⟩
  · rw [h'.tables, h.tables, ← Draft.noteAll_append]
  · rw [h'.code, h.code, List.map_append, List.append_assoc]
  · rcases List.mem_append.mp hi with hi | hi
    · exact hfirst r (h.lines i hi r hr)
    · exact hsecond r (h'.lines i hi r hr)
  · rcases List.mem_append.mp ho with ho | ho
    · exact hfirst r (h.operands o ho r hr)
    · exact hsecond r (h'.operands o ho r hr)

/-- Only the operands of the second emission are kept. -/
theorem trans (h : Emission given us d os d₁ is)
    (h' : Emission (given ++ os.flatMap (fun o => o.place.references) ++ us.filterMap Use.reference?)
      vs d₁ os' d₂ js) :
    Emission given (us ++ vs) d os' d₂ (is ++ js) :=
  ⟨(h.append h').tables, (h.append h').code, (h.append h').lines, fun o ho =>
    (h.append h').operands o (List.mem_append_right _ ho)⟩

end Emission

/-! ### Uses of a tree -/

namespace Expr

/-- What a node enters in the tables before its children are emitted. -/
def firstUses : Expr → List Use
  | element _ _ _ => [.global]
  | _ => []

/-- What a node enters in the tables after its children are emitted. -/
def lastUses (target : Target) : Expr → List Use
  | literal l => [.literal l.bits]
  | field f => [.buffer f.slot f.size]
  | sample i _ => [.input i.slot i.type]
  | elementAt _ _ => [.global]
  | position _ => if target == .compute then [] else [.position]
  | _ => []

/-- What a node enters itself. -/
def ownUses (target : Target) (e : Expr) : List Use := e.firstUses ++ e.lastUses target

/-- What emission of a tree enters in the tables, in order. -/
def uses (target : Target) : Expr → List Use
  | unary _ x | convert _ _ x | select x _ | unselected x _ => x.uses target
  | binary _ x y => x.uses target ++ y.uses target
  | ternary _ x y z => x.uses target ++ y.uses target ++ z.uses target
  | sample i c => c.uses target ++ [.input i.slot i.type]
  | element _ b _ => .global :: b.uses target
  | e => e.lastUses target

variable {target : Target} {e : Expr} {d d' : Draft} {o : Operand}

theorem uses_eq (target : Target) (e : Expr) :
    e.uses target = e.firstUses ++ e.children.flatMap (uses target) ++ e.lastUses target := by
  cases e <;> simp [uses, firstUses, children, lastUses]

theorem mem_uses {u : Use} : u ∈ e.uses target ↔ ∃ x ∈ e.subterms, u ∈ x.ownUses target := by
  induction e using induction_children with
  | h e ih =>
    rw [uses_eq, subterms_eq, List.mem_append, List.mem_append, List.mem_flatMap]
    constructor
    · rintro ((hu | ⟨x, hx, hu⟩) | hu)
      · exact ⟨e, List.mem_cons_self, List.mem_append_left _ hu⟩
      · obtain ⟨y, hy, huy⟩ := (ih x hx).mp hu
        exact ⟨y, List.mem_cons_of_mem _ (List.mem_flatMap.mpr ⟨x, hx, hy⟩), huy⟩
      · exact ⟨e, List.mem_cons_self, List.mem_append_right _ hu⟩
    · rintro ⟨y, hy, hu⟩
      rcases List.mem_cons.mp hy with rfl | hy
      · exact (List.mem_append.mp hu).imp .inl id
      · obtain ⟨x, hx, hy⟩ := List.mem_flatMap.mp hy
        exact .inl (.inr ⟨x, hx, (ih x hx).mpr ⟨y, hy, hu⟩⟩)

end Expr

/-! ### The node's own part -/

theorem Kind.fromFloat_references (k : Kind) : k.fromFloat.references = [] := by
  unfold fromFloat
  cases h : k.conversion .float with
  | none => rfl
  | some p => exact Kind.conversion_references h

theorem Expr.overload_sampleFree {e : Expr} {f : Overload} (h : e.overload? = some f) :
    f.SampleFree := by
  cases e with
  | unary op x => exact UnaryOp.sampleFree h
  | convert op t x => exact Conversion.sampleFree h
  | binary op x y => exact BinaryOp.sampleFree h
  | ternary op x y z => exact TernaryOp.sampleFree h
  | _ => cases h

section Own

variable {given : List Reference} {d d' : Draft} {o a : Operand} {target : Target}

theorem Overload.emitInto_emission {f : Overload} (hf : f.SampleFree) {dst : Operand}
    {args : List Operand} {u : Unit} (h : f.emitInto dst args d = .ok (u, d')) :
    ∃ is, Emission ((dst :: args).flatMap fun x => x.place.references) [] d [] d' is := by
  obtain ⟨scratch, d₁, hscratch, h⟩ := Emit.bind_ok_iff.mp h
  rw [Draft.allocMany_eq] at hscratch
  cases hscratch
  obtain ⟨is, d₂, his, h⟩ := Emit.bind_ok_iff.mp h
  obtain ⟨his, rfl⟩ := Emit.lift_ok_iff.mp his
  cases h
  refine ⟨is, .given_only d f.scratch (fun i hi r hr => ?_) (by simp)⟩
  obtain ⟨x, hx, hr⟩ := List.mem_flatMap.mp (f.references_emit hf his i hi hr)
  rcases List.mem_append.mp hx with hx | hx
  · exact List.mem_flatMap.mpr ⟨x, hx, hr⟩
  · -- a scratch register refers to nothing
    obtain ⟨j, -, rfl⟩ := List.mem_map.mp hx
    cases hr

theorem Overload.emitFresh_emission {f : Option Overload} (hf : ∀ g, f = some g → g.SampleFree)
    {args : List Operand} (h : Overload.emitFresh f args d = .ok (o, d')) :
    ∃ is, Emission (args.flatMap fun x => x.place.references) [] d [o] d' is := by
  cases f with
  | none => exact absurd h Emit.throw_ne_ok
  | some f =>
    obtain ⟨dst, d₁, hdst, h⟩ := Emit.bind_ok_iff.mp h
    cases hdst
    obtain ⟨u, d₂, hinto, h⟩ := Emit.bind_ok_iff.mp h
    cases h
    obtain ⟨is, his⟩ := Overload.emitInto_emission (hf f rfl) hinto
    exact ⟨is, his.tables, his.code, his.lines, by simp [Operand.ofType, Place.references]⟩

theorem freshLine_references (m : Mnemonic) (t : ValueType) (a : Operand) (start : Nat) :
    (freshLine m t a start).references = m.references ++ a.place.references := by
  simp [freshLine, Instruction.references, Operand.destination, Operand.ofType, Operand.source,
    Operand.signed, Place.references]

theorem emitFresh_emission {m : Mnemonic} {t : ValueType} (h : emitFresh m t a d = .ok (o, d')) :
    Emission (m.references ++ a.place.references) [] d [o] d' [freshLine m t a d.next] := by
  rw [emitFresh_eq] at h
  cases h
  refine .given_only d 1 (fun i hi => ?_) (by simp [Operand.ofType, Place.references])
  rw [List.mem_singleton.mp hi, freshLine_references]
  exact List.Subset.refl _

theorem orFault_ok_iff {α : Type} {x : Except Error α} {y : α} :
    orFault x d = .ok (y, d') ↔ x = .ok y ∧ d = d' := by
  cases x with
  | error e =>
    refine ⟨fun h => absurd h Emit.throw_ne_ok, ?_⟩
    rintro ⟨h, -⟩
    cases h
  | ok a =>
    constructor
    · intro h
      cases h
      exact ⟨rfl, rfl⟩
    · rintro ⟨h, rfl⟩
      cases h
      rfl

/-- A variable is a register, and reading its operand leaves the draft alone. -/
theorem Variable.operand_place {v : Variable} (h : v.operand d = .ok (o, d')) :
    (∃ r, o.place = .temp r) ∧ d = d' := by
  unfold operand at h
  cases hh : v.home with
  | none =>
    rw [hh] at h
    exact absurd h Emit.throw_ne_ok
  | some home =>
    rw [hh] at h
    cases h
    exact ⟨⟨home.register, rfl⟩, rfl⟩

theorem Variable.viewOperand_place {v : Variable} {mask : String}
    (h : v.viewOperand mask d = .ok (o, d')) : (∃ r, o.place = .temp r) ∧ d = d' := by
  obtain ⟨s, d₁, hs, h⟩ := Emit.bind_ok_iff.mp h
  obtain ⟨-, rfl⟩ := orFault_ok_iff.mp hs
  obtain ⟨x, d₂, hx, h⟩ := Emit.bind_ok_iff.mp h
  obtain ⟨⟨r, hplace⟩, rfl⟩ := operand_place hx
  obtain ⟨ho, hd⟩ := Emit.lift_ok_iff.mp h
  exact ⟨⟨r, (Operand.select_place ho).trans hplace⟩, hd.symm⟩

/-- The operand of a field names an element inside the buffer, or a text. -/
theorem BufferField.operand_references {f : BufferField} (h : f.operand = .ok o) :
    ∀ r ∈ o.place.references, r = .element f.slot f.index := by
  obtain ⟨name, hplace⟩ := externalOperand_place (operand_eq h)
  rw [hplace, placeOf]
  split_ifs
  · simp [place, Place.references]
  · simp [Place.references]

theorem BufferField.operand_range {f : BufferField} (h : f.operand = .ok o) :
    0 ≤ f.slot ∧ 0 ≤ f.index ∧ f.index < f.size := by
  unfold operand at h
  split_ifs at h with hshape hrange
  simp only [Bool.or_eq_true, decide_eq_true_eq, not_or, not_lt, not_le] at hshape hrange
  exact ⟨hshape.1, hrange.1, hrange.2⟩

/-- The position of the work item shows as a read of the window position, unless the program is a
compute program. -/
theorem emitPosition_emission {t : ValueType} (h : emitPosition target t d = .ok (o, d')) :
    ∃ is, Emission [] ((Expr.position t).lastUses target) d [o] d' is ∧
      Shows ((Expr.position t).lastUses target) is := by
  by_cases htarget : (target == .compute) = true
  · have huses : (Expr.position t).lastUses target = [] := if_pos htarget
    rw [huses]
    rw [emitPosition, if_pos htarget] at h
    obtain ⟨id, hid, h⟩ := Emit.bind_lift_ok_iff.mp h
    have hplace : id.place.references = [] := by
      rw [Operand.span_place hid]
      rfl
    split_ifs at h
    · have hfresh := emitFresh_emission h
      rw [hplace] at hfresh
      exact ⟨_, hfresh, .nil _⟩
    · cases h
      exact ⟨[], .refl _ (by simp [hplace]), .nil _⟩
  · have huses : (Expr.position t).lastUses target = [.position] := if_neg htarget
    rw [huses]
    rw [emitPosition, if_neg htarget, Emit.bind_of_ok (Draft.usePosition_eq d)] at h
    obtain ⟨window, hwindow, h⟩ := Emit.bind_lift_ok_iff.mp h
    obtain ⟨rounded, d₃, hrounded, h⟩ := Emit.bind_ok_iff.mp h
    have hplace : window.place.references = [.position] := by
      rw [Operand.span_place hwindow]
      rfl
    have hread := emitFresh_emission hrounded
    rw [hplace] at hread
    have hfirst := (Emission.note [] d .position).trans hread
    have hshow : Shows [.position] [freshLine .floor (.vector .float t.components) window d.next] :=
      .single rfl (by simp [freshLine_references, hplace])
    split_ifs at h
    · cases h
      exact ⟨_, hfirst, hshow⟩
    · have hsecond := emitFresh_emission h
      rw [Kind.fromFloat_references, List.nil_append] at hsecond
      refine ⟨_, hfirst.trans (hsecond.mono fun r hr => ?_), hshow.append (.nil _)⟩
      simp [hr]

end Own

namespace Expr

variable {target : Target} {e : Expr} {args : List Operand} {d d' : Draft} {o : Operand}

theorem operation_emission (hfirst : e.firstUses = []) (hlast : e.lastUses target = [])
    (h : Overload.emitFresh e.overload? args d = .ok (o, d')) :
    ∃ is, Emission (args.flatMap (fun x => x.place.references) ++ e.firstUses.filterMap Use.reference?)
        (e.lastUses target) d [o] d' is ∧ Shows (e.ownUses target) is := by
  obtain ⟨is, his⟩ := Overload.emitFresh_emission (fun f => overload_sampleFree) h
  rw [ownUses, hfirst, hlast]
  exact ⟨is, his.mono (by simp), .nil _⟩

/-- What the node's own part enters, refers to and shows. -/
theorem finish_emission (h : e.finish target args d = .ok (o, d')) :
    ∃ is, Emission (args.flatMap (fun x => x.place.references) ++ e.firstUses.filterMap Use.reference?)
        (e.lastUses target) d [o] d' is ∧ Shows (e.ownUses target) is := by
  cases e with
  | absent => exact absurd h Emit.throw_ne_ok
  | unary op x | convert op t x | binary op x y | ternary op x y z =>
    exact operation_emission rfl rfl h
  | unselected x cause => exact operation_emission rfl rfl h
  | select x p =>
    rcases args with _ | ⟨a, _ | ⟨b, rest⟩⟩
    · exact absurd h Emit.throw_ne_ok
    · obtain ⟨ho, hd⟩ : a.select p = .ok o ∧ d' = d := Emit.lift_ok_iff.mp h
      subst hd
      exact ⟨[], .refl _ (by simp [Operand.select_place ho]), .nil _⟩
    · exact absurd h Emit.throw_ne_ok
  | literal l =>
    cases h
    refine ⟨[], .noted _ d fun r hr => ?_, by simp [Shows, ownUses, firstUses, lastUses, Use.reference?]⟩
    obtain rfl := List.mem_singleton.mp hr
    exact ⟨l.bits, List.mem_singleton_self _, d.literals.lookup_add l.bits⟩
  | external t text =>
    obtain ⟨ho, rfl⟩ := orFault_ok_iff.mp h
    obtain ⟨name, hplace⟩ := externalOperand_place ho
    exact ⟨[], .refl _ (by simp [hplace, Place.references]), .nil _⟩
  | field f =>
    simp only [finish, Emit.bind_of_ok (Draft.useBuffer_eq f.slot f.size d)] at h
    obtain ⟨ho, rfl⟩ := orFault_ok_iff.mp h
    obtain ⟨-, hindex⟩ := BufferField.operand_range ho
    refine ⟨[], .noted _ d fun r hr => ?_, by simp [Shows, ownUses, firstUses, lastUses, Use.reference?]⟩
    obtain rfl := BufferField.operand_references ho r hr
    exact ⟨f.size, List.mem_singleton_self _, hindex⟩
  | var v =>
    obtain ⟨⟨r, hplace⟩, rfl⟩ := Variable.operand_place h
    exact ⟨[], .refl _ (by simp [hplace, Place.references]), .nil _⟩
  | view v mask =>
    obtain ⟨⟨r, hplace⟩, rfl⟩ := Variable.viewOperand_place h
    exact ⟨[], .refl _ (by simp [hplace, Place.references]), .nil _⟩
  | sample i c =>
    rcases args with _ | ⟨a, _ | ⟨b, rest⟩⟩
    · exact absurd h Emit.throw_ne_ok
    · simp only [finish, Emit.bind_of_ok (Draft.useInput_eq i.slot i.type d)] at h
      have hread := emitFresh_emission h
      refine ⟨_, (Emission.note _ d (.input i.slot i.type)).trans (hread.mono ?_), .single rfl ?_⟩
      · simp [Mnemonic.references, Use.reference?]
      · simp [freshLine_references, Mnemonic.references]
    · exact absurd h Emit.throw_ne_ok
  | element t b offset =>
    rcases args with _ | ⟨a, _ | ⟨b, rest⟩⟩
    · exact absurd h Emit.throw_ne_ok
    · have hread := emitFresh_emission (m := .mov) h
      refine ⟨_, hread.mono ?_, .single rfl ?_⟩
      · simp [Mnemonic.references, Use.reference?, elementOperand, Operand.ofType, Place.references,
          firstUses]
      · simp [freshLine_references, elementOperand, Operand.ofType, Place.references]
    · exact absurd h Emit.throw_ne_ok
  | elementAt t offset =>
    simp only [finish, Emit.bind_of_ok (Draft.useGlobal_eq d)] at h
    have hread := emitFresh_emission h
    refine ⟨_, (Emission.note _ d .global).trans (hread.mono ?_), .single rfl ?_⟩
    · simp [Mnemonic.references, Use.reference?, elementAtOperand, Operand.ofType, Place.references]
    · simp [freshLine_references, elementAtOperand, Operand.ofType, Place.references]
  | position t =>
    obtain ⟨is, his, hshow⟩ := emitPosition_emission h
    exact ⟨is, his.mono (List.nil_subset _), hshow⟩

/-! ### Trees and assignments -/

theorem emitAll_emission_of {es : List Expr} (hes : ∀ e ∈ es, ∀ {d d' : Draft} {o : Operand},
      e.emit target d = .ok (o, d') →
        ∃ is, Emission [] (e.uses target) d [o] d' is ∧ Shows (e.uses target) is)
    {os : List Operand} (h : emitAll target es d = .ok (os, d')) :
    ∃ is, Emission [] (es.flatMap (uses target)) d os d' is ∧ Shows (es.flatMap (uses target)) is := by
  induction es generalizing d os with
  | nil =>
    cases h
    exact ⟨[], .refl _ (by simp), .nil _⟩
  | cons e es ih =>
    obtain ⟨a, d₁, ha, h⟩ := Emit.bind_ok_iff.mp h
    obtain ⟨as, d₂, has, h⟩ := Emit.bind_ok_iff.mp h
    cases h
    obtain ⟨is, his, hshow⟩ := hes e List.mem_cons_self ha
    obtain ⟨js, hjs, hshow'⟩ := ih (fun x hx => hes x (List.mem_cons_of_mem _ hx)) has
    exact ⟨is ++ js, his.append (hjs.mono (List.nil_subset _)), hshow.append hshow'⟩

/-- Whenever a tree is emitted, so are its children, and its own part comes after them. -/
theorem finish_of_emit (h : e.emit target d = .ok (o, d')) : ∃ args d₁,
    emitAll target e.children (e.opened d) = .ok (args, d₁) ∧ e.finish target args d₁ = .ok (o, d') := by
  by_cases he : ∃ x cause, e = unselected x cause
  · obtain ⟨x, cause, rfl⟩ := he
    exact absurd h Emit.throw_ne_ok
  · rw [emit_eq target fun x cause hx => he ⟨x, cause, hx⟩] at h
    exact Emit.bind_ok_iff.mp h

/-- Whenever a tree is emitted, its uses are entered in order, the new lines and the operand refer
only to them, and they show. -/
theorem emit_emission (h : e.emit target d = .ok (o, d')) :
    ∃ is, Emission [] (e.uses target) d [o] d' is ∧ Shows (e.uses target) is := by
  induction e using induction_children generalizing d o d' with
  | h e ih =>
    obtain ⟨args, d₁, hargs, hfinish⟩ := finish_of_emit h
    obtain ⟨is, his, hshow⟩ := emitAll_emission_of (fun x hx => ih x hx) hargs
    obtain ⟨js, hjs, hshow'⟩ := finish_emission hfinish
    have hopened : Emission [] e.firstUses d [] (e.opened d) [] := by
      cases e with
      | element => exact .note [] d .global
      | _ => exact .refl d (by simp)
    refine ⟨[] ++ is ++ js, ?_, ?_⟩
    · rw [uses_eq]
      refine (hopened.trans (his.mono (List.nil_subset _))).trans (hjs.mono fun r hr => ?_)
      rw [List.filterMap_append]
      simp only [List.mem_append] at hr ⊢
      tauto
    · rw [uses_eq, List.nil_append]
      refine (hshow.append hshow').mono (fun u hu => ?_) (List.Subset.refl _)
      rw [ownUses]
      simp only [List.mem_append] at hu ⊢
      tauto

theorem emitAll_emission {es : List Expr} {os : List Operand} (h : emitAll target es d = .ok (os, d')) :
    ∃ is, Emission [] (es.flatMap (uses target)) d os d' is ∧ Shows (es.flatMap (uses target)) is :=
  emitAll_emission_of (fun _ _ _ _ _ => emit_emission) h

end Expr

variable {target : Target} {e : Expr} {d d' : Draft} {u : Unit}

theorem emitMove_emission {dst value : Operand} (h : emitMove dst value d = .ok (u, d')) :
    ∃ i, Emission (dst.place.references ++ value.place.references) [] d [] d' [i] ∧
      dst.place.references ⊆ i.references := by
  obtain ⟨x, hplace, hx⟩ : ∃ x : Operand, x.place = value.place ∧
      Draft.writeAll [⟨.mov, dst.destination, [x.alignedTo dst]⟩] d = .ok (u, d') := by
    unfold emitMove at h
    split_ifs at h
    · obtain ⟨x, hx, h⟩ := Emit.bind_lift_ok_iff.mp h
      exact ⟨x, Operand.splat_place hx, h⟩
    · exact ⟨value, rfl, h⟩
  cases hx
  have hreferences : (⟨.mov, dst.destination, [x.alignedTo dst]⟩ : Instruction).references =
      dst.place.references ++ value.place.references := by
    simp [Instruction.references, Mnemonic.references, Operand.destination, Operand.alignedTo, hplace]
  refine ⟨_, .given_only d 0 (fun i hi => ?_) (by simp), ?_⟩
  · rw [List.mem_singleton.mp hi, hreferences]
    exact List.Subset.refl _
  · rw [hreferences]
    exact List.subset_append_left _ _

theorem Expr.direct_overload {t : ValueType} {f : Overload} (h : e.direct? t = some f) :
    e.overload? = some f := (Option.filter_eq_some_iff.mp h).1

theorem Expr.uses_of_overload {f : Overload} (h : e.overload? = some f) :
    e.uses target = e.operands.flatMap (Expr.uses target) := by
  cases e with
  | unary | convert | binary | ternary => simp [uses, operands]
  | _ => cases h

theorem emitTo_emission {dst : Operand} (hdst : dst.place.references = []) {direct : Option Overload}
    (hdirect : ∀ f, direct = some f → e.overload? = some f)
    (h : emitTo target dst direct e d = .ok (u, d')) :
    ∃ is, Emission [] (e.uses target) d [] d' is ∧ Shows (e.uses target) is := by
  cases direct with
  | some f =>
    obtain ⟨args, d₁, hargs, h⟩ := Emit.bind_ok_iff.mp h
    obtain ⟨is, his, hshow⟩ := Expr.emitAll_emission hargs
    obtain ⟨js, hjs⟩ := Overload.emitInto_emission (Expr.overload_sampleFree (hdirect f rfl)) h
    rw [Expr.uses_of_overload (hdirect f rfl)]
    rw [List.flatMap_cons, hdst, List.nil_append] at hjs
    have hall := his.trans (hjs.mono fun r hr => by simp [hr])
    rw [List.append_nil] at hall
    exact ⟨_, hall, hshow.mono (List.Subset.refl _) (List.subset_append_left _ _)⟩
  | none =>
    obtain ⟨value, d₁, hvalue, h⟩ := Emit.bind_ok_iff.mp h
    obtain ⟨is, his, hshow⟩ := Expr.emit_emission hvalue
    obtain ⟨i, hi, -⟩ := emitMove_emission h
    rw [hdst, List.nil_append] at hi
    have hall := his.trans (hi.mono fun r hr => by simp [hr])
    rw [List.append_nil] at hall
    exact ⟨_, hall, hshow.mono (List.Subset.refl _) (List.subset_append_left _ _)⟩

namespace LValue

/-- Whenever an assignment is emitted, the uses of its value and then those of its destination are
entered in order, the new lines refer only to them, and they show. -/
theorem store_emission {dst : LValue} (h : dst.store target e d = .ok (u, d')) :
    ∃ is, Emission [] (e.uses target ++ dst.toExpr.uses target) d [] d' is ∧
      Shows (e.uses target ++ dst.toExpr.uses target) is := by
  cases dst with
  | var v =>
    obtain ⟨dst, d₁, hdst, h⟩ := Emit.bind_ok_iff.mp h
    obtain ⟨⟨r, hplace⟩, rfl⟩ := Variable.operand_place hdst
    have huses : (var v).toExpr.uses target = [] := rfl
    rw [huses, List.append_nil]
    exact emitTo_emission (by rw [hplace]; rfl) (fun f => Expr.direct_overload) h
  | view v mask =>
    obtain ⟨lanes, d₁, hlanes, h⟩ := Emit.bind_ok_iff.mp h
    obtain ⟨-, rfl⟩ := orFault_ok_iff.mp hlanes
    obtain ⟨dst, d₂, hdst, h⟩ := Emit.bind_ok_iff.mp h
    obtain ⟨⟨r, hplace⟩, rfl⟩ := Variable.viewOperand_place hdst
    have huses : (view v mask).toExpr.uses target = [] := rfl
    rw [huses, List.append_nil]
    refine emitTo_emission (by rw [hplace]; rfl) (fun f hf => ?_) h
    split_ifs at hf
    exact Expr.direct_overload hf
  | element t a =>
    obtain ⟨value, d₁, hvalue, h⟩ := Emit.bind_ok_iff.mp h
    obtain ⟨is, his, hshow⟩ := Expr.emit_emission hvalue
    rw [Emit.bind_of_ok (Draft.useGlobal_eq d₁)] at h
    have hnote := his.append ((Emission.note [] d₁ .global).mono (List.nil_subset _))
    obtain ⟨base, offset⟩ := a
    cases base with
    | none =>
      have hmove : emitMove (elementAtOperand t offset) value (d₁.note .global) = .ok (u, d') := h
      obtain ⟨i, hi, hglobal⟩ := emitMove_emission hmove
      have hall := hnote.trans (hi.mono fun r hr => ?_)
      · rw [List.append_nil] at hall
        refine ⟨_, hall, ?_⟩
        rw [List.append_nil]
        exact hshow.append (.single (u := .global) rfl (hglobal (List.mem_singleton_self _)))
      · simp only [elementAtOperand, Operand.ofType, Place.references, List.mem_append,
          List.mem_singleton] at hr
        rcases hr with rfl | hr
        · simp [Use.reference?]
        · simp [hr]
    | some b =>
      obtain ⟨base, d₂, hbase, hmove⟩ := Emit.bind_ok_iff.mp h
      obtain ⟨js, hjs, hshow'⟩ := Expr.emit_emission hbase
      obtain ⟨i, hi, hglobal⟩ := emitMove_emission hmove
      have hall := (hnote.append (hjs.mono (List.nil_subset _))).trans (hi.mono fun r hr => ?_)
      · rw [List.append_nil, List.append_assoc] at hall
        refine ⟨_, hall, ?_⟩
        rw [List.append_nil, List.append_assoc]
        have hmove : Shows [.global] [i] := .single rfl (hglobal List.mem_cons_self)
        refine hshow.append ((hshow'.append hmove).mono ?_ (List.Subset.refl _))
        intro x hx
        have huses : x ∈ .global :: b.uses target := hx
        simpa [or_comm] using huses
      · simp only [elementOperand, Operand.ofType, Place.references, List.mem_append,
          List.mem_cons] at hr
        rcases hr with (rfl | hr) | hr
        · simp [Use.reference?]
        · simp [hr]
        · simp [hr]

end LValue

end ShaderIL
