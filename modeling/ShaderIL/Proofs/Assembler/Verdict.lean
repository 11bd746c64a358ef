import ShaderIL.Proofs.Assembler.Counts

/-!
# The verdict on a kernel

A kernel is compiled exactly if it is clean: every statement was accepted (`DoesAll`), every block is
closed, the device has room for every memory object (`Device.Admits`), and the kernel ends without an
error of its own. Otherwise the error is that of the first refused statement (`FirstRefusal`), then that
of the open blocks, then a limit of the device (`Device.Exceeded`), then the kernel's own: `Verdict` says
so, and `compile_verdict` proves it of every kernel, also of one that goes on after an error.
-/

namespace ShaderIL

/-! ### Limits of the device -/

namespace Device

/-- The device has room for a memory object. -/
def Admits (d : Device) (b : Binding) : Prop :=
  (b.kind = .input → b.slot < d.maxInputs) ∧
  (b.kind = .constant → b.slot < d.maxBuffers ∧ b.size ≤ d.maxBufferSize)

/-- The device has no room for a memory object, and the error that says so. -/
inductive Exceeded (d : Device) (b : Binding) : Error → Prop
  | input (hkind : b.kind = .input) (hslot : d.maxInputs ≤ b.slot) :
    Exceeded d b (.inputLimit b.slot d.maxInputs)
  | buffer (hkind : b.kind = .constant) (hslot : d.maxBuffers ≤ b.slot) :
    Exceeded d b (.bufferLimit b.slot d.maxBuffers)
  | size (hkind : b.kind = .constant) (hsize : d.maxBufferSize < b.size) :
    Exceeded d b (.bufferSizeLimit b.slot b.size d.maxBufferSize)

theorem admits_iff {d : Device} {b : Binding} : d.Admits b ↔ ∀ e, ¬ d.Exceeded b e := by
  constructor
  · rintro ⟨hinput, hconstant⟩ e he
    rcases he with ⟨hkind, hslot⟩ | ⟨hkind, hslot⟩ | ⟨hkind, hsize⟩
    · have hlt := hinput hkind
      omega
    · have hlt := (hconstant hkind).1
      omega
    · have hle := (hconstant hkind).2
      omega
  · intro h
    refine ⟨fun hkind => ?_, fun hkind => ⟨?_, ?_⟩⟩
    · by_contra hslot
      exact h _ (.input hkind (by omega))
    · by_contra hslot
      exact h _ (.buffer hkind (by omega))
    · by_contra hsize
      exact h _ (.size hkind (by omega))

end Device

namespace Assembler

/-- Every statement is accepted, and together they lead to the second state. -/
inductive DoesAll : Assembler → List Statement → Assembler → Prop
  | nil {s} : DoesAll s [] s
  | cons {s st o s₁ sts s'} (h : Does s st o s₁) (hs : DoesAll s₁ sts s') : DoesAll s (st :: sts) s'

variable {s s' : Assembler} {st : Statement} {sts : List Statement} {os : List Outcome}
  {order : Traversal}

theorem mem_inputErrors {e : Error} : e ∈ s.inputErrors order ↔ ∃ slot t,
    (slot, t) ∈ s.draft.inputs.entries ∧ s.device.maxInputs ≤ slot ∧
      e = .inputLimit slot s.device.maxInputs := by
  simp only [inputErrors, List.mem_filterMap, Prod.exists, (order.inputs_perm _).mem_iff,
    Option.ite_none_right_eq_some, Option.some.injEq, eq_comm (a := e)]

theorem mem_bufferErrors {e : Error} : e ∈ s.bufferErrors order ↔ ∃ slot size,
    (slot, size) ∈ s.draft.buffers.entries ∧
      (s.device.maxBuffers ≤ slot ∧ e = .bufferLimit slot s.device.maxBuffers ∨
        s.device.maxBufferSize < size ∧
          e = .bufferSizeLimit slot size s.device.maxBufferSize) := by
  simp only [bufferErrors, List.mem_flatMap, List.mem_append, List.mem_ite_nil_right,
    List.mem_singleton, Prod.exists, (order.buffers_perm _).mem_iff]

theorem mem_bindings {b : Binding} : b ∈ s.bindings ↔
    (s.draft.usesGlobal = true ∧ b = ⟨.global, "g[]", 0, .invalid, 0⟩) ∨
    (∃ slot t, (slot, t) ∈ s.draft.inputs.entries ∧
      b = ⟨.input, "i" ++ toString slot, slot, t, 0⟩) ∨
    (∃ slot size, (slot, size) ∈ s.draft.buffers.entries ∧
      b = ⟨.constant, "cb" ++ toString slot, slot, .invalid, size⟩) := by
  simp only [bindings, Draft.bindings, List.mem_append, List.mem_ite_nil_right, List.mem_singleton,
    List.mem_map, Prod.exists, or_assoc, eq_comm (b := b)]

theorem mem_limitErrors {e : Error} :
    e ∈ s.inputErrors order ++ s.bufferErrors order ↔ ∃ b ∈ s.bindings, s.device.Exceeded b e := by
  rw [List.mem_append, mem_inputErrors, mem_bufferErrors]
  constructor
  · rintro (⟨slot, t, hentry, hlimit, rfl⟩ | ⟨slot, size, hentry, hlimit⟩)
    · exact ⟨_, mem_bindings.mpr (.inr (.inl ⟨slot, t, hentry, rfl⟩)), .input rfl hlimit⟩
    · refine ⟨_, mem_bindings.mpr (.inr (.inr ⟨slot, size, hentry, rfl⟩)), ?_⟩
      rcases hlimit with ⟨hslot, rfl⟩ | ⟨hsize, rfl⟩
      · exact .buffer rfl hslot
      · exact .size rfl hsize
  · rintro ⟨b, hb, he⟩
    rcases mem_bindings.mp hb with ⟨-, rfl⟩ | ⟨slot, t, hentry, rfl⟩ | ⟨slot, size, hentry, rfl⟩
    · -- the global buffer has no limit
      rcases he with ⟨hkind, -⟩ | ⟨hkind, -⟩ | ⟨hkind, -⟩ <;> cases hkind
    · rcases he with ⟨-, hslot⟩ | ⟨hkind, -⟩ | ⟨hkind, -⟩
      · exact .inl ⟨slot, t, hentry, hslot, rfl⟩
      · cases hkind
      · cases hkind
    · rcases he with ⟨hkind, -⟩ | ⟨-, hslot⟩ | ⟨-, hsize⟩
      · cases hkind
      · exact .inr ⟨slot, size, hentry, .inl ⟨hslot, rfl⟩⟩
      · exact .inr ⟨slot, size, hentry, .inr ⟨hsize, rfl⟩⟩

theorem limitErrors_eq_nil :
    s.inputErrors order ++ s.bufferErrors order = [] ↔ ∀ b ∈ s.bindings, s.device.Admits b := by
  rw [List.eq_nil_iff_forall_not_mem]
  constructor
  · intro h b hb
    rw [Device.admits_iff]
    exact fun e he => h e (mem_limitErrors.mpr ⟨b, hb, he⟩)
  · intro h e he
    obtain ⟨b, hb, he⟩ := mem_limitErrors.mp he
    exact Device.admits_iff.mp (h b hb) e he

/-! ### Statements one after the other -/

/-- The report is that of the first refused statement: those before it are accepted, and it is what
the assembler has recorded after it. -/
def FirstRefusal (s : Assembler) (sts : List Statement) (r : Report) : Prop :=
  ∃ before st after os s₁ o, sts = before ++ st :: after ∧ s.execAll before = .ok (os, s₁) ∧
    DoesAll s before s₁ ∧ Refuses s₁ st r ∧ s₁.exec st = .ok (o, { s₁ with report := some r })

theorem Does.device_eq {o : Outcome} (h : Does s st o s') : s'.device = s.device := by
  cases h <;> rfl

theorem DoesAll.frame (h : DoesAll s sts s') :
    s'.phase = s.phase ∧ s'.report = s.report ∧ s'.device = s.device := by
  induction h with
  | nil => exact ⟨rfl, rfl, rfl⟩
  | cons h _ ih =>
    obtain ⟨hphase, hreport, hdevice⟩ := ih
    exact ⟨hphase.trans h.phase_eq, hreport.trans h.report_eq, hdevice.trans h.device_eq⟩

/-- In an open unit without an error all statements are accepted, or there is a first refused one and
its report is there in the end. -/
theorem execAll_cases (hphase : s.phase = .building) (hreport : s.report = none)
    (h : s.execAll sts = .ok (os, s')) :
    DoesAll s sts s' ∨ ∃ r, FirstRefusal s sts r ∧ s'.phase = .building ∧ s'.report = some r := by
  induction sts generalizing s os with
  | nil =>
    cases h
    exact .inl .nil
  | cons st sts ih =>
    obtain ⟨o, s₁, os₁, hexec, hrest, rfl⟩ := execAll_cons_ok.mp h
    rcases exec_cases hphase hreport hexec with ⟨r, hrefuses, hfail⟩ | hdoes
    · -- from here on the statements change nothing
      have hs₁ : s₁ = { s with report := some r } := by
        rw [hfail, fail_eq, hreport, Option.getD_none]
      have hfailed : s₁.report ≠ none := by
        rw [hs₁]
        exact Option.some_ne_none r
      obtain ⟨os₂, hskip⟩ := execAll_of_report hfailed sts
      have hlast : s' = s₁ := by
        rw [hskip] at hrest
        cases hrest
        rfl
      refine .inr ⟨r, ⟨[], st, sts, [], s, o, rfl, rfl, .nil, hrefuses, hs₁ ▸ hexec⟩, ?_, ?_⟩
      · rw [hlast, hs₁]
        exact hphase
      · rw [hlast, hs₁]
    · have hphase₁ := hdoes.phase_eq.trans hphase
      have hreport₁ := hdoes.report_eq.trans hreport
      rcases ih hphase₁ hreport₁ hrest with hall | ⟨r, hfirst, hstate⟩
      · exact .inl (.cons hdoes hall)
      · obtain ⟨before, st', after, os₂, s₂, o', rfl, hbefore, hall, hrefuses, hexec'⟩ := hfirst
        exact .inr ⟨r, ⟨st :: before, st', after, o :: os₂, s₂, o', rfl,
          execAll_cons_ok.mpr ⟨o, s₁, os₂, hexec, hbefore, rfl⟩, .cons hdoes hall, hrefuses, hexec'⟩,
          hstate⟩

theorem FirstRefusal.report_eq {r : Report} (hfirst : FirstRefusal s sts r)
    (h : s.execAll sts = .ok (os, s')) : s'.report = some r := by
  obtain ⟨before, st, after, os₁, s₁, o, rfl, hbefore, -, -, hexec⟩ := hfirst
  obtain ⟨os₂, s₂, os₃, hbefore', hrest, -⟩ := execAll_append_ok.mp h
  cases hbefore.symm.trans hbefore'
  obtain ⟨o', s₃, os₄, hexec', hafter, -⟩ := execAll_cons_ok.mp hrest
  cases hexec.symm.trans hexec'
  obtain ⟨os₅, hskip⟩ := execAll_of_report
    (s := { s₁ with report := some r }) (Option.some_ne_none r) after
  cases hskip.symm.trans hafter
  rfl

end Assembler

/-! ### Counts that are reported -/

/-- A number below the marks of an overflow is narrowed to itself. -/
theorem Host.narrow_word_of_lt {n : Int} (hn : 0 ≤ n) (h : n < 2147483647) :
    (Host.word n).narrow .uint32 = some n := by
  have hwrap : IntegerFormat.uint32.wrap n = n := by
    change n % 4294967296 = n
    omega
  have hword : (⟨true, 64⟩ : IntegerFormat).wrap n = n := by
    change n.bmod 18446744073709551616 = n
    exact Int.bmod_eq_of_le (by omega) (by omega)
  have hmark : ∀ m : Nat, 2147483648 ≤ m → (n % m == (m : Int) - 1) = false := by
    intro m hm
    rw [beq_eq_false_iff_ne, Int.emod_eq_of_lt hn (by omega)]
    omega
  have hlong : lowOnes 63 n = false := hmark (1 <<< 63) (by decide)
  have hshort : lowOnes 31 n = false := hmark (1 <<< 31) (by decide)
  simp [word, narrow, narrowInteger, hwrap, hword, hlong, hshort]

theorem reportedCount_of_lt {n : Nat} (h : n < 2147483647) : reportedCount n = .ok n := by
  rw [reportedCount, Host.narrow_word_of_lt (Int.natCast_nonneg n) (by omega)]
  rfl

namespace Assembler

variable {o : Options} {body : Body} {start s : Assembler} {sts : List Statement} {os : List Outcome}
  {own : Option KernelError} {order : Traversal}

/-- The counts of the unit are small enough to be reported. -/
structure Countable (s : Assembler) : Prop where
  registers : s.registers < 2147483647
  literals : s.literals < 2147483647
  instructions : s.instructions < 2147483647

theorem Countable.compiled_ok {f : Assembler} (hcount : f.Countable) (hphase : f.phase = .finalized)
    (hreport : f.report = none) : ∃ c, f.compiled = .ok c := by
  have hprogram : f.program = .ok (f.header ++ f.code) := by
    simp [program, hphase, hreport]
  refine ⟨⟨f.header ++ f.code, f.target, f.bindings, f.registers, f.literals, f.instructions⟩, ?_⟩
  simp only [compiled, hprogram, reportedCount_of_lt hcount.registers,
    reportedCount_of_lt hcount.literals, reportedCount_of_lt hcount.instructions]
  rfl

/-! ### The end of a kernel -/

/-- The first error of a unit comes before everything else. -/
theorem conclude_of_report {r : Report} (hphase : s.phase = .building) (hreport : s.report = some r) :
    s.conclude own order = .error (.unit r) := by
  have hfailed : s.report ≠ none := by
    rw [hreport]
    exact Option.some_ne_none r
  rw [conclude, finish_eq hphase, foldl_failWith_of_report hfailed]
  simp only [hreport]

/-- What the end of the unit finds comes before the kernel's own error. -/
theorem conclude_of_closingErrors {e : Error} {es : List Error} (hphase : s.phase = .building)
    (hreport : s.report = none) (herrors : s.closingErrors order = e :: es) :
    s.conclude own order = .error (.unit (.single e)) := by
  rw [conclude, finish_of_report_none hphase hreport, herrors]
  rfl

theorem conclude_of_own {e : KernelError} (hphase : s.phase = .building) (hreport : s.report = none)
    (herrors : s.closingErrors order = []) : s.conclude (some e) order = .error (.kernel e) := by
  rw [conclude, finish_of_report_none hphase hreport, herrors]
  rfl

theorem conclude_of_clean (hphase : s.phase = .building) (hreport : s.report = none)
    (herrors : s.closingErrors order = []) (hcount : s.Countable) : ∃ c, s.conclude none order = .ok c := by
  have hclosed : Countable { s with phase := .finalized, report := none } :=
    ⟨hcount.registers, hcount.literals, hcount.instructions⟩
  obtain ⟨c, hc⟩ := hclosed.compiled_ok rfl rfl
  refine ⟨c, ?_⟩
  rw [conclude, finish_of_report_none hphase hreport, herrors]
  exact hc

/-! ### The verdict -/

/-- What comes of a kernel that makes statements which lead from `start` to `s`, and then ends with an
error of its own or without one. -/
structure Verdict (o : Options) (start : Assembler) (sts : List Statement) (s : Assembler)
    (own : Option KernelError) (result : Except CompileError Compiled) : Prop where
  /-- A program is returned exactly if the kernel is clean. -/
  accepted_iff : (∃ c, result = .ok c) ↔ DoesAll start sts s ∧ s.flow = [] ∧
    (∀ b ∈ s.bindings, o.device.Admits b) ∧ own = none
  /-- The error of the first refused statement comes first, -/
  refused : ∀ r, FirstRefusal start sts r → result = .error (.unit r)
  /-- then that of the open blocks, -/
  unterminated : DoesAll start sts s → ∀ b blocks, s.flow = b :: blocks →
    result = .error (.unit (.single (.unterminated (blocks.length + 1) b.text)))
  /-- then that of a memory object the device has no room for, -/
  limit : DoesAll start sts s → s.flow = [] → ¬ (∀ b ∈ s.bindings, o.device.Admits b) →
    ∃ b ∈ s.bindings, ∃ e, o.device.Exceeded b e ∧ result = .error (.unit (.single e))
  /-- then the kernel's own. -/
  own : DoesAll start sts s → s.flow = [] → (∀ b ∈ s.bindings, o.device.Admits b) →
    ∀ e, own = some e → result = .error (.kernel e)
  /-- There is nothing else. -/
  refused_of_not_all : ¬ DoesAll start sts s → ∃ r, FirstRefusal start sts r

theorem Verdict.of_refusal {r : Report} (hphase : s.phase = .building) (hreport : s.report = some r)
    (hstart : start.report = none) (hexec : start.execAll sts = .ok (os, s))
    (hfirst : FirstRefusal start sts r) : Verdict o start sts s own (s.conclude own order) := by
  have hnot : ¬ DoesAll start sts s := by
    intro hall
    obtain ⟨-, hsame, -⟩ := hall.frame
    rw [hreport, hstart] at hsame
    cases hsame
  have hresult : s.conclude own order = .error (.unit r) := conclude_of_report hphase hreport
  refine ⟨⟨?_, fun h => absurd h.1 hnot⟩, ?_, fun h => absurd h hnot, fun h => absurd h hnot,
    fun h => absurd h hnot, fun _ => ⟨r, hfirst⟩⟩
  · rintro ⟨c, hc⟩
    rw [hresult] at hc
    cases hc
  · intro r' hfirst'
    have hsame := hfirst'.report_eq hexec
    rw [hreport, Option.some.injEq] at hsame
    rw [hresult, hsame]

theorem Verdict.of_all (hphase : s.phase = .building) (hreport : s.report = none)
    (hdevice : s.device = o.device) (hexec : start.execAll sts = .ok (os, s))
    (hall : DoesAll start sts s) (hcount : s.Countable) :
    Verdict o start sts s own (s.conclude own order) := by
  have hnone : ∀ r, ¬ FirstRefusal start sts r := by
    intro r hfirst
    have hr := hfirst.report_eq hexec
    rw [hreport] at hr
    cases hr
  have hroom : s.inputErrors order ++ s.bufferErrors order = [] ↔
      ∀ b ∈ s.bindings, o.device.Admits b := hdevice ▸ limitErrors_eq_nil
  have hexceeded : ∀ e, e ∈ s.inputErrors order ++ s.bufferErrors order ↔
      ∃ b ∈ s.bindings, o.device.Exceeded b e := fun e => hdevice ▸ mem_limitErrors
  by_cases hflow : s.flow = []
  · have hclosing : s.closingErrors order = s.inputErrors order ++ s.bufferErrors order := by
      simp [closingErrors, openBlockErrors, hflow]
    by_cases hadmits : ∀ b ∈ s.bindings, o.device.Admits b
    · have hnothing : s.closingErrors order = [] := hclosing.trans (hroom.mpr hadmits)
      refine ⟨?_, fun r hfirst => absurd hfirst (hnone r), ?_, fun _ _ h => absurd hadmits h, ?_,
        fun h => absurd hall h⟩
      · cases own with
        | none => exact ⟨fun _ => ⟨hall, hflow, hadmits, rfl⟩,
            fun _ => conclude_of_clean hphase hreport hnothing hcount⟩
        | some e =>
          rw [conclude_of_own hphase hreport hnothing]
          constructor
          · rintro ⟨c, hc⟩
            cases hc
          · rintro ⟨-, -, -, hown⟩
            cases hown
      · intro _ b blocks hopen
        rw [hflow] at hopen
        cases hopen
      · rintro _ _ _ e rfl
        exact conclude_of_own hphase hreport hnothing
    · have hsome : s.closingErrors order ≠ [] := fun h => hadmits (hroom.mp (hclosing.symm.trans h))
      obtain ⟨e, es, herrors⟩ := List.exists_cons_of_ne_nil hsome
      have hresult : s.conclude own order = _ := conclude_of_closingErrors hphase hreport herrors
      have hmem : e ∈ s.inputErrors order ++ s.bufferErrors order := by
        rw [← hclosing, herrors]
        exact List.mem_cons_self
      obtain ⟨b, hb, hlimit⟩ := (hexceeded e).mp hmem
      refine ⟨⟨?_, fun h => absurd h.2.2.1 hadmits⟩, fun r hfirst => absurd hfirst (hnone r), ?_,
        fun _ _ _ => ⟨b, hb, e, hlimit, hresult⟩, fun _ _ h => absurd h hadmits,
        fun h => absurd hall h⟩
      · rintro ⟨c, hc⟩
        rw [hresult] at hc
        cases hc
      · intro _ b blocks hopen
        rw [hflow] at hopen
        cases hopen
  · obtain ⟨b, blocks, hopen⟩ := List.exists_cons_of_ne_nil hflow
    have herrors : s.closingErrors order =
        .unterminated (blocks.length + 1) b.text :: (s.inputErrors order ++ s.bufferErrors order) := by
      simp [closingErrors, openBlockErrors, hopen]
    have hresult : s.conclude own order = _ := conclude_of_closingErrors hphase hreport herrors
    refine ⟨⟨?_, fun h => absurd h.2.1 hflow⟩, fun r hfirst => absurd hfirst (hnone r), ?_,
      fun _ h => absurd h hflow, fun _ h => absurd h hflow, fun h => absurd hall h⟩
    · rintro ⟨c, hc⟩
      rw [hresult] at hc
      cases hc
    · intro _ b' blocks' hopen'
      rw [hopen] at hopen'
      cases hopen'
      exact hresult

/-- **A kernel is compiled exactly if it is clean.** Let a kernel act in the opened unit as a sequence of
statements, after which it ends with an error of its own or without one. It faults if a statement does.
Otherwise, with counts that can be reported, it gets a program exactly if every statement was accepted,
every block is closed, the device has room for all memory objects and it has no error of its own; and if
not, the error of the first of these that fails. This is so in whatever order the memory objects are
checked. -/
theorem compile_verdict (hbegin : o.assembler.begin = .ok start)
    (hbody : body start = (start.execAll sts).map fun r => (own, r.2)) :
    (∀ fault, start.execAll sts = .error fault → compile o (some body) order = .error fault) ∧
    ∀ os s, start.execAll sts = .ok (os, s) → s.Countable →
      ∃ result, compile o (some body) order = .ok result ∧ Verdict o start sts s own result := by
  have hcompile : compile o (some body) order =
      (body start).map fun r => r.2.conclude r.1 order := by
    have hrun : body.run start = body start := rfl
    simp only [compile, hbegin, hrun]
    cases body start with
    | error => rfl
    | ok r => rfl
  constructor
  · intro fault hfault
    rw [hcompile, hbody, hfault]
    rfl
  · intro os s hexec hcount
    refine ⟨s.conclude own order, ?_, ?_⟩
    · rw [hcompile, hbody, hexec]
      rfl
    · obtain ⟨hphase, hreport, -⟩ := begin_spec hbegin
      have hdevice : start.device = o.device := by
        cases hbegin
        rfl
      rcases execAll_cases hphase hreport hexec with hall | ⟨r, hfirst, hphase', hreport'⟩
      · obtain ⟨hphase', hreport', hdevice'⟩ := hall.frame
        exact .of_all (hphase'.trans hphase) (hreport'.trans hreport) (hdevice'.trans hdevice) hexec
          hall hcount
      · exact .of_refusal hphase' hreport' hreport hexec hfirst

/-- The premises can be met: an input the device does not have is sampled in a loop that is left open, and
the kernel ends with an error of its own. The loop is what it is refused for. -/
theorem verdict_of_open_loop :
    let start : Assembler := { phase := .building, generation := 1 }
    let sts : List Statement := [.whileLoop, .eval (.sample ⟨200, .float4⟩ (.position .float2))]
    let own : Option KernelError := some (.stated "late")
    let body : Body := fun s => (s.execAll sts).map fun r => (own, r.2)
    ∃ os s, ({} : Options).assembler.begin = .ok start ∧ start.execAll sts = .ok (os, s) ∧
      s.Countable ∧ (∃ b ∈ s.bindings, ¬ ({} : Device).Admits b) ∧
      compile {} (some body) = .ok (.error (.unit (.single (.unterminated 1 "whileloop")))) := by
  intro start sts own body
  have hbegin : ({} : Options).assembler.begin = .ok start := rfl
  obtain ⟨os, s, hexec, hreport, hflow, hinput, hcount⟩ : ∃ os s, start.execAll sts = .ok (os, s) ∧
      s.report = none ∧ s.flow = [.loop] ∧ ⟨.input, "i200", 200, .float4, 0⟩ ∈ s.bindings ∧
      s.Countable := by
    refine ⟨_, _, rfl, rfl, rfl, ?_, ?_, ?_, ?_⟩
    all_goals decide +kernel
  have hall : DoesAll start sts s := by
    rcases execAll_cases rfl rfl hexec with hall | ⟨r, -, -, hr⟩
    · exact hall
    · rw [hreport] at hr
      cases hr
  have hbody : body start = (start.execAll sts).map fun r => (own, r.2) := rfl
  obtain ⟨result, hcompile, hverdict⟩ := (compile_verdict hbegin hbody).2 os s hexec hcount
  refine ⟨os, s, hbegin, hexec, hcount, ⟨_, hinput, fun h => ?_⟩, ?_⟩
  · exact absurd (h.1 rfl) (by decide)
  · rw [hcompile, hverdict.unterminated hall .loop [] hflow]
    rfl

end Assembler

end ShaderIL
