import ShaderIL.Proofs.Assembler.Flow
import ShaderIL.Proofs.Expr.Cost

/-!
# What statements add to a unit

`Assembler.Adds` says what statements add to an open unit, wherever it has got to: the registers they
take and a property of their lines, each of which counts as one instruction. Such effects follow one
another (`Adds.append`), statements made for the elements of a list add what is made for each
(`Adds.each`), and a loop encloses what its body adds (`Adds.loop`). The effect of an assignment is that
of its value, whose lines are followed by a move unless the value is an operation that writes the
destination itself.
-/

namespace ShaderIL

/-- The lines are instructions with the given mnemonics that write registers. -/
def Line.Computes (ms : List Mnemonic) (ls : List Line) : Prop :=
  ∃ is : List Instruction, ls = is.map instruction ∧ is.map Instruction.mnemonic = ms ∧
    ∀ i ∈ is, ∃ r, i.dst.place = .temp r

namespace Line.Computes

variable {ms ms' : List Mnemonic} {ls ls' : List Line}

theorem append (h : Computes ms ls) (h' : Computes ms' ls') : Computes (ms ++ ms') (ls ++ ls') := by
  obtain ⟨is, rfl, rfl, hdst⟩ := h
  obtain ⟨js, rfl, rfl, hdst'⟩ := h'
  refine ⟨is ++ js, List.map_append.symm, List.map_append, fun i hi => ?_⟩
  exact (List.mem_append.mp hi).elim (hdst i) (hdst' i)

theorem length (h : Computes ms ls) : ls.length = ms.length := by
  obtain ⟨is, rfl, rfl, -⟩ := h
  rw [List.length_map, List.length_map]

theorem mem (h : Computes ms ls) {l : Line} (hl : l ∈ ls) :
    ∃ i : Instruction, l = .instruction i ∧ i.mnemonic ∈ ms ∧ ∃ r, i.dst.place = .temp r := by
  obtain ⟨is, rfl, rfl, hdst⟩ := h
  obtain ⟨i, hi, rfl⟩ := List.mem_map.mp hl
  exact ⟨i, rfl, List.mem_map_of_mem hi, hdst i hi⟩

end Line.Computes

theorem Line.computes_of_extends {d d' : Draft} {is : List Instruction} {ms : List Mnemonic}
    (h : d.Extends d' is) (hms : is.map Instruction.mnemonic = ms) :
    Computes ms (is.map instruction) := by
  refine ⟨is, rfl, hms, fun i hi => ?_⟩
  obtain ⟨r, hr, -⟩ := h.fresh i hi
  exact ⟨r, hr⟩

theorem Line.breaks_of_plain {is : List Instruction} (h : ∀ i ∈ is, i.In .plain) :
    Line.breaks (is.map instruction) = (is.map instruction).length := by
  induction is with
  | nil => rfl
  | cons i is ih =>
    obtain ⟨hi, his⟩ := List.forall_mem_cons.mp h
    rw [List.map_cons, breaks_cons, hi.flat.singleLine.countBreaks, ih his, List.length_cons,
      Nat.add_comm]

theorem Line.breaks_word (w : FlowWord) : Line.breaks [.word w] = 1 := by
  cases w <;> decide

namespace Assembler

/-- The unit is open without an error, for a target and inside blocks. -/
structure Open (s : Assembler) (target : Target) (unit : UnitId) (flow : List Block) : Prop where
  phase : s.phase = .building
  report : s.report = none
  target_eq : s.target = target
  unit_eq : s.unit = unit
  flow_eq : s.flow = flow

/-- The statements are carried out, take `k` registers and add the lines `ls`. -/
structure Makes (s : Assembler) (sts : List Statement) (k : Nat) (ls : List Line) (s' : Assembler) :
    Prop where
  runs : ∃ os, s.execAll sts = .ok (os, s')
  frame : s' = { s with draft := s'.draft }
  next : s'.draft.next = s.draft.next + k
  code : s'.draft.code.toList = s.draft.code.toList ++ ls
  counted : s'.draft.instructions = s.draft.instructions + ls.length

/-- Wherever a unit has got to, the statements are carried out, take `k` registers and add lines with a
property. -/
def Adds (target : Target) (unit : UnitId) (flow : List Block) (sts : List Statement) (k : Nat)
    (P : List Line → Prop) : Prop :=
  ∀ s : Assembler, s.Open target unit flow → ∃ ls s', s.Makes sts k ls s' ∧ P ls

variable {s s₁ s' : Assembler} {target : Target} {unit : UnitId} {flow : List Block}
  {sts sts' : List Statement} {k k' : Nat} {ls ls' : List Line} {P Q R : List Line → Prop} {α : Type}

theorem Makes.isOpen (h : s.Makes sts k ls s') (hs : s.Open target unit flow) :
    s'.Open target unit flow := by
  rw [h.frame]
  exact ⟨hs.phase, hs.report, hs.target_eq, hs.unit_eq, hs.flow_eq⟩

theorem Makes.trans (h : s.Makes sts k ls s₁) (h' : s₁.Makes sts' k' ls' s') :
    s.Makes (sts ++ sts') (k + k') (ls ++ ls') s' := by
  obtain ⟨os, hruns⟩ := h.runs
  obtain ⟨os', hruns'⟩ := h'.runs
  have hnext := h.next
  have hnext' := h'.next
  have hcounted := h.counted
  have hcounted' := h'.counted
  have happend : s.execAll (sts ++ sts') = .ok (os ++ os', s') :=
    execAll_append_ok.mpr ⟨os, s₁, os', hruns, hruns', rfl⟩
  refine ⟨⟨_, happend⟩, ?_, by omega, ?_, ?_⟩
  · rw [h'.frame, h.frame]
  · rw [h'.code, h.code, List.append_assoc]
  · rw [List.length_append]
    omega

/-- A loop is opened. -/
def looping (s : Assembler) : Assembler :=
  { s with flow := .loop :: s.flow }.writeLine (.word .whileLoop)

theorem Open.looping (hs : s.Open target unit flow) : s.looping.Open target unit (.loop :: flow) :=
  ⟨hs.phase, hs.report, hs.target_eq, hs.unit_eq, by rw [← hs.flow_eq]; rfl⟩

/-- The body runs with the loop open; closing it restores the blocks, so the frame is that of the
whole. -/
theorem Makes.loop (hs : s.Open target unit flow) (h : s.looping.Makes sts k ls s₁) :
    s.Makes (.whileLoop :: sts ++ [.endLoop]) k (.word .whileLoop :: ls ++ [.word .endLoop])
      ({ s₁ with flow := flow }.writeLine (.word .endLoop)) := by
  obtain ⟨os, hruns⟩ := h.runs
  have hs₁ := h.isOpen hs.looping
  have hopened : s.exec .whileLoop = .ok (.done, s.looping) := by
    rw [exec, whileLoop, guarded_eq hs.phase hs.report]
    rfl
  let s₂ : Assembler := { s₁ with flow := flow }.writeLine (.word .endLoop)
  have hclosed : s₁.exec .endLoop = .ok (.done, s₂) := by
    rw [exec, endLoop, guarded_eq hs₁.phase hs₁.report]
    simp only [hs₁.flow_eq]
    rfl
  have hall : s.execAll (.whileLoop :: sts ++ [.endLoop]) = .ok (.done :: (os ++ [.done]), s₂) := by
    rw [List.cons_append]
    exact execAll_cons_ok.mpr ⟨_, s.looping, _, hopened,
      execAll_append_ok.mpr ⟨os, s₁, _, hruns, execAll_singleton hclosed, rfl⟩, rfl⟩
  refine ⟨⟨_, hall⟩, ?_, h.next, ?_, ?_⟩
  · have hframe := h.frame
    simp only [writeLine]
    rw [hframe, ← hs.flow_eq]
    rfl
  · have hcode := h.code
    simp [looping, writeLine] at hcode ⊢
    simp [hcode]
  · have hcounted := h.counted
    simp only [looping, writeLine, Draft.written_instructions, Line.breaks_word] at hcounted ⊢
    simp only [List.cons_append, List.length_cons, List.length_append, List.length_nil]
    omega

/-- A conditional break is the code of its condition and the test. -/
theorem Makes.breakIf {c : Expr} {ms : List Mnemonic} {o : Operand} {d : Draft}
    (hs : s.Open target unit flow) (hc : Expr.Costs target unit c .bool1 k ms)
    (hloop : flow.contains .loop = true) (hemit : c.emit target s.draft = .ok (o, d)) :
    ∃ is : List Instruction, s.Makes [.breakIf c] k (is.map .instruction ++ [.test .breakTrue o.source])
        ({ s with draft := d }.writeLine (.test .breakTrue o.source)) ∧
      d.code.toList = s.draft.code.toList ++ is.map .instruction ∧
      Line.Computes ms (is.map .instruction) := by
  obtain ⟨hphase, hreport, rfl, rfl, rfl⟩ := hs
  obtain ⟨is, hext, hnext, hms⟩ := hc.emits hemit
  have hstays := Expr.emit_stays hc.canonical.leaves hemit
  have hcond : s.condition .breakTrue c = .ok (some o, { s with draft := d }) := by
    simp [condition, hc.accepted.clean, hc.type_eq, emitting_ok hemit]
  have hexec : s.exec (.breakIf c) =
      .ok (.done, { s with draft := d }.writeLine (.test .breakTrue o.source)) := by
    rw [exec, Assembler.breakIf, guarded_eq hphase hreport]
    simp only [inLoop, hloop, hcond]
    rfl
  refine ⟨is, ⟨⟨[.done], execAll_singleton hexec⟩, rfl, hnext, ?_, ?_⟩, hext.code,
    Line.computes_of_extends hext hms⟩
  · simp [writeLine, hext.code]
  · have hregister : o.place.Register := hstays.operands o (List.mem_singleton_self o)
    have htest : Line.breaks [.test .breakTrue o.source] = 1 :=
      (FlowTest.singleLine .breakTrue (c := o.source) hregister.flat).countBreaks
    simp only [writeLine, Draft.written_instructions, htest, hext.counted,
      Line.breaks_of_plain (hstays.lines hext.code), List.length_append, List.length_singleton]
    omega

namespace Adds

theorem nil : Adds target unit flow [] 0 (· = []) :=
  fun s _ => ⟨[], s, ⟨⟨[], rfl⟩, rfl, rfl, by simp, by simp⟩, rfl⟩

theorem mono (h : Adds target unit flow sts k P) (hPQ : ∀ ls, P ls → Q ls) :
    Adds target unit flow sts k Q := by
  intro s hs
  obtain ⟨ls, s', hmakes, hP⟩ := h s hs
  exact ⟨ls, s', hmakes, hPQ ls hP⟩

theorem append (h : Adds target unit flow sts k P) (h' : Adds target unit flow sts' k' Q)
    (hR : ∀ ls ls', P ls → Q ls' → R (ls ++ ls')) :
    Adds target unit flow (sts ++ sts') (k + k') R := by
  intro s hs
  obtain ⟨ls, s₁, hmakes, hP⟩ := h s hs
  obtain ⟨ls', s', hmakes', hQ⟩ := h' s₁ (hmakes.isOpen hs)
  exact ⟨ls ++ ls', s', hmakes.trans hmakes', hR ls ls' hP hQ⟩

theorem followed (h : Adds target unit flow sts k P) (h' : Adds target unit flow sts' k' Q) :
    Adds target unit flow (sts ++ sts') (k + k')
      fun ls => ∃ l l', ls = l ++ l' ∧ P l ∧ Q l' :=
  h.append h' fun l l' hP hQ => ⟨l, l', rfl, hP, hQ⟩

theorem append_computes {ms ms' : List Mnemonic} (h : Adds target unit flow sts k (Line.Computes ms))
    (h' : Adds target unit flow sts' k' (Line.Computes ms')) :
    Adds target unit flow (sts ++ sts') (k + k') (Line.Computes (ms ++ ms')) :=
  h.append h' fun _ _ => Line.Computes.append

/-- **Statements made for each element of a list** add what those of each element add. -/
theorem each {f : α → List Statement} {cost : α → Nat} {P : α → List Line → Prop}
    {R : List α → List Line → Prop} (hnil : R [] [])
    (hcons : ∀ a xs ls ls', P a ls → R xs ls' → R (a :: xs) (ls ++ ls')) {xs : List α}
    (h : ∀ a ∈ xs, Adds target unit flow (f a) (cost a) (P a)) :
    Adds target unit flow (xs.flatMap f) ((xs.map cost).sum) (R xs) := by
  induction xs with
  | nil => exact nil.mono fun ls hls => hls ▸ hnil
  | cons a xs ih =>
    have hrest := ih fun b hb => h b (List.mem_cons_of_mem _ hb)
    rw [List.map_cons, List.sum_cons]
    exact (h a List.mem_cons_self).append hrest (hcons a xs)

theorem each_computes {f : α → List Statement} {cost : α → Nat} {ms : α → List Mnemonic} {xs : List α}
    (h : ∀ a ∈ xs, Adds target unit flow (f a) (cost a) (Line.Computes (ms a))) :
    Adds target unit flow (xs.flatMap f) ((xs.map cost).sum)
      (Line.Computes (xs.flatMap ms)) :=
  each (R := fun xs => Line.Computes (xs.flatMap ms)) ⟨[], rfl, rfl, by simp⟩
    (fun _ _ _ _ => Line.Computes.append) h

theorem each_lines {f : α → List Statement} {lines : α → List Line} {xs : List α}
    (h : ∀ a ∈ xs, Adds target unit flow (f a) 0 (· = lines a)) :
    Adds target unit flow (xs.flatMap f) 0 (· = xs.flatMap lines) := by
  have hall := each (R := fun xs ls => ls = xs.flatMap lines) rfl
    (fun _ _ _ _ heq heq' => by rw [heq, heq', List.flatMap_cons]) h
  rwa [List.map_const', List.sum_replicate, smul_zero] at hall

/-! ### Flow -/

theorem loop (h : Adds target unit (.loop :: flow) sts k P) :
    Adds target unit flow (.whileLoop :: sts ++ [.endLoop]) k
      fun ls => ∃ body, ls = .word .whileLoop :: body ++ [.word .endLoop] ∧ P body := by
  intro s hs
  obtain ⟨body, s', hmakes, hP⟩ := h s.looping hs.looping
  exact ⟨_, _, hmakes.loop hs, body, rfl, hP⟩

theorem of_exec {st : Statement} (h : ∀ s : Assembler, s.Open target unit flow → ∃ o d ls,
      s.exec st = .ok (o, { s with draft := d }) ∧ d.next = s.draft.next + k ∧
      d.code.toList = s.draft.code.toList ++ ls ∧
      d.instructions = s.draft.instructions + ls.length ∧ P ls) :
    Adds target unit flow [st] k P := by
  intro s hs
  obtain ⟨o, d, ls, hexec, hnext, hcode, hcounted, hP⟩ := h s hs
  exact ⟨ls, _, ⟨⟨[o], execAll_singleton hexec⟩, rfl, hnext, hcode, hcounted⟩, hP⟩

theorem breakIf {c : Expr} {ms : List Mnemonic} (hc : Expr.Costs target unit c .bool1 k ms)
    (hloop : flow.contains .loop = true) : Adds target unit flow [.breakIf c] k
      fun ls => ∃ code o, ls = code ++ [.test .breakTrue o] ∧ Line.Computes ms code := by
  intro s hs
  obtain ⟨o, d, hemit, -⟩ := hc.accepted.emit_ok target s.draft
  obtain ⟨is, hmakes, -, hcomputes⟩ := Makes.breakIf hs hc hloop hemit
  exact ⟨_, _, hmakes, is.map .instruction, o.source, rfl, hcomputes⟩

/-! ### Assignments -/

variable {dst : LValue} {e : Expr} {t : ValueType} {ms : List Mnemonic}

/-- A destination in a register gives no text. -/
theorem canonical_of_operand? {D : Operand} (hD : dst.operand? = some D) : dst.toExpr.Canonical := by
  cases dst with
  | var | view =>
    refine Expr.Canonical.of_children (by simp [LValue.toExpr, Expr.children]) ?_ ?_
    · intro u text hexternal
      cases hexternal
    · intro f hfield
      cases hfield
  | element => cases hD

/-- What an accepted assignment adds follows from what it stores. -/
theorem of_stores (he : e.Accepted unit) (hdst : dst.toExpr.Accepted unit) (hcanon : e.Canonical)
    (hcanon' : dst.toExpr.Canonical) (hacc : LValue.accepts dst.type e.type = true)
    (h : ∀ {d d' : Draft}, LValue.Stores target e d dst d' → ∃ is : List Instruction,
      d'.next = d.next + k ∧ d'.code.toList = d.code.toList ++ is.map .instruction ∧
      d'.instructions = d.instructions + Line.breaks (is.map .instruction) ∧
      P (is.map .instruction)) :
    Adds target unit flow [.assign (some dst) e] k P := by
  refine of_exec fun s hs => ?_
  obtain ⟨hphase, hreport, rfl, rfl, -⟩ := hs
  obtain ⟨d, hstore, hstores⟩ : ∃ d, dst.store s.target e s.draft = .ok ((), d) ∧
    LValue.Stores s.target e s.draft dst d := LValue.store_ok he hdst hacc s.draft
  have hclean : LValue.assignErrors s.unit (some dst) e = [] := by
    simp [LValue.assignErrors, hdst.clean, he.clean, hacc]
  obtain ⟨is, hnext, hcode, hcounted, hP⟩ := h hstores
  have hstays := LValue.store_stays hcanon.leaves hcanon'.leaves hstore
  rw [Line.breaks_of_plain (hstays.lines hcode)] at hcounted
  refine ⟨.done, d, _, ?_, hnext, hcode, hcounted, hP⟩
  rw [exec, assign, guarded_eq hphase hreport]
  simp [hclean, emitting_ok hstore]

/-- A value that does not write its destination itself is computed and moved. -/
theorem move {D : Operand} (he : Expr.Costs target unit e t k ms) (hdst : dst.toExpr.Accepted unit)
    (hD : dst.operand? = some D) (hacc : LValue.accepts dst.type t = true)
    (hdirect : dst.direct? e = none) :
    Adds target unit flow [.assign (some dst) e] k (Line.Computes (ms ++ [Mnemonic.mov])) := by
  obtain ⟨⟨r, hplace⟩, -⟩ := LValue.operand?_fits hdst hD
  refine of_stores he.accepted hdst he.canonical (canonical_of_operand? hD)
    (by rw [he.type_eq]; exact hacc) fun {d d'} hstores => ?_
  cases hstores with
  | @moved _ D' o d₁ hD' hemit _ =>
    rw [hD] at hD'
    cases hD'
    obtain ⟨is, hext, hnext, hms⟩ := he.emits hemit
    have hcomputes : Line.Computes [Mnemonic.mov] [.instruction (moveLine D o)] :=
      ⟨[_], rfl, rfl, fun i hi => ⟨r, by rw [List.mem_singleton.mp hi]; exact hplace⟩⟩
    refine ⟨is ++ [moveLine D o], hnext, ?_, ?_, ?_⟩
    · rw [Draft.appended_code_toList, hext.code, List.map_append, List.append_assoc]
    · rw [Draft.appended_instructions, hext.counted, List.map_append, Line.breaks_append, Nat.add_assoc]
    · rw [List.map_append]
      exact (Line.computes_of_extends hext hms).append hcomputes
  | direct _ _ _ _ _ hd =>
    rw [hdirect] at hd
    cases hd
  | elementAt | element => cases hD

/-- An operation of one line writes its destination behind the code of its operands. -/
theorem write {f : Overload} {ts : List ValueType} {r : Nat} (hf : e.overload? = some f)
    (hall : Expr.CostsAll target unit e.children ts k ms) (hdst : dst.toExpr.Accepted unit)
    (hD : dst.operand? = some (Operand.ofType (.temp r) f.result)) (hresult : dst.type = f.result)
    (hdirect : dst.direct? e = some f) :
    Adds target unit flow [.assign (some dst) e] k fun ls =>
      ∃ (d d₁ : Draft) (args : List Operand) (code : List Line),
        Expr.emitAll target e.children d = .ok (args, d₁) ∧ Line.Computes ms code ∧
        ls = code ++ (f.lines (Operand.ofType (.temp r) f.result) args d₁.next).map .instruction := by
  have he := Expr.Costs.operation hf hall
  obtain ⟨hsound, hargs, -⟩ := Expr.overload?_spec hf
  have hacc : LValue.accepts dst.type e.type = true := by
    rw [he.type_eq, hresult]
    simp [LValue.accepts]
  refine of_stores he.accepted hdst he.canonical (canonical_of_operand? hD) hacc
    fun {d d'} hstores => ?_
  cases hstores with
  | moved _ _ hd =>
    rw [hdirect] at hd
    cases hd
  | @direct _ r' f' args d₁ hf' _ hD' _ hemit _ =>
    rw [hf] at hf'
    cases hf'
    rw [hD] at hD'
    have hr : Operand.ofType (.temp r') f.result = Operand.ofType (.temp r) f.result :=
      (Option.some.inj hD').symm
    rw [hr]
    obtain ⟨is, hext, hnext, hms⟩ := hall.emits hemit
    have hcomputes := Line.computes_of_extends hext hms
    refine ⟨is ++ f.lines (Operand.ofType (.temp r) f.result) args d₁.next, hnext, ?_, ?_, d, d₁,
      args, is.map .instruction, hemit, hcomputes, List.map_append⟩
    · rw [Draft.appended_code_toList, hext.code, List.map_append, List.append_assoc]
    · rw [Draft.appended_instructions, hext.counted, List.map_append, Line.breaks_append, Nat.add_assoc]
  | elementAt | element => cases hD

theorem write_computes {f : Overload} {ts : List ValueType} {r : Nat} (hf : e.overload? = some f)
    (hall : Expr.CostsAll target unit e.children ts k ms) (hdst : dst.toExpr.Accepted unit)
    (hD : dst.operand? = some (Operand.ofType (.temp r) f.result)) (hresult : dst.type = f.result)
    (hdirect : dst.direct? e = some f) :
    Adds target unit flow [.assign (some dst) e] k
      (Line.Computes (ms ++ f.body.map Pattern.mnemonic)) := by
  obtain ⟨hsound, -⟩ := Expr.overload?_spec hf
  refine (write hf hall hdst hD hresult hdirect).mono ?_
  rintro ls ⟨d, d₁, args, code, -, hcode, rfl⟩
  refine hcode.append ⟨_, rfl, by rw [Overload.lines, List.map_map]; rfl, fun i hi => ?_⟩
  rcases Overload.lines_dst hsound (Operand.ofType_fits (.temp r) hsound.result_valid) hi with
    ⟨hsame, -⟩ | ⟨q, -, hscratch⟩
  · exact ⟨r, hsame⟩
  · exact ⟨d₁.next + q, congrArg Destination.place hscratch⟩

/-- An element of the global buffer is written in one line if the value and the base have no code. -/
theorem storeElement {b : Expr} {u : ValueType} {offset : Int64} {o base : Operand}
    (he : Expr.Costs target unit e t 0 []) (hb : Expr.Costs target unit b u 0 [])
    (hdst : (LValue.element t ⟨some b, offset⟩).toExpr.Accepted unit)
    (ho : ∀ d, e.emit target d = .ok (o, d)) (hbase : ∀ d, b.emit target d = .ok (base, d)) :
    Adds target unit flow [.assign (some (.element t ⟨some b, offset⟩)) e] 0
      (· = [.instruction (moveLine (elementOperand t base offset) o)]) := by
  have ht : (LValue.element t ⟨some b, offset⟩).type = t := Expr.type_element hdst.typed.type_valid
  have hacc : LValue.accepts (LValue.element t ⟨some b, offset⟩).type e.type = true := by
    rw [he.type_eq, ht]
    simp [LValue.accepts]
  have hcanon : (LValue.element t ⟨some b, offset⟩).toExpr.Canonical := by
    refine Expr.Canonical.of_children (List.forall_mem_singleton.mpr hb.canonical) ?_ ?_
    · intro u text hexternal
      cases hexternal
    · intro f hfield
      cases hfield
  refine of_stores he.accepted hdst he.canonical hcanon hacc
    fun {d d'} hstores => ?_
  cases hstores with
  | moved hD => cases hD
  | direct _ _ hD => cases hD
  | element hemit hemit' =>
    rw [ho] at hemit
    cases hemit
    rw [hbase] at hemit'
    cases hemit'
    exact ⟨[_], rfl, Draft.appended_code_toList _ _, Draft.appended_instructions _ _, rfl⟩

end Adds

end Assembler

end ShaderIL
