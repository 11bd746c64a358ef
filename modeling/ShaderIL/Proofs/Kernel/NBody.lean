import ShaderIL.Proofs.Expr.Registers
import ShaderIL.Proofs.Kernel.NBodyCode

/-!
# Gravitation unrolled for every number of bodies

`Parts.Unrolled` is what the code of the kernel is to be, and `body_grows_by_round` says that it is,
whatever number of bodies a round takes. The lines of two bodies differ in the names of six registers
(`renamed_pullLines`), which stand nowhere else (`mentions_pullLines`).
-/

namespace ShaderIL

/-! ### Renamed registers -/

/-- The place with its registers renamed. -/
def Place.renamed (f : Nat → Nat) : Place → Place
  | .temp r => .temp (f r)
  | .globalFrom base lanes offset => .globalFrom (base.renamed f) lanes offset
  | p => p

/-- The instruction with its registers renamed. -/
def Instruction.renamed (f : Nat → Nat) (i : Instruction) : Instruction :=
  ⟨i.mnemonic, ⟨i.dst.place.renamed f, i.dst.mask⟩,
    i.srcs.map fun s => ⟨s.place.renamed f, s.lanes, s.sign⟩⟩

/-- The instruction writes the register of the variable. -/
def Instruction.sets (i : Instruction) (v : Variable) : Bool :=
  v.home.any fun h => i.dst.place == .temp h.register

namespace NBody

open Assembler Expr Build
open Draft (Mark)

variable {target : Target} {unit : UnitId} {n : Nat}

/-! ### The lines of a body -/

@[simp] theorem renamed_line (f : Nat → Nat) (m : Mnemonic) (dst : Operand) (srcs : List Operand) :
    (line m dst srcs).renamed f = line m { dst with place := dst.place.renamed f }
      (srcs.map fun o => { o with place := o.place.renamed f }) := by
  simp [line, Instruction.renamed, Operand.destination, Operand.mask, Operand.source, Operand.signed]

@[simp] theorem mentions_line (m : Mnemonic) (dst : Operand) (srcs : List Operand) (r : Nat) :
    (line m dst srcs).Mentions r ↔ dst.place.Mentions r ∨ ∃ o ∈ srcs, o.place.Mentions r := by
  simp [line, Instruction.Mentions, Operand.destination, Operand.source, Operand.signed]

/-- The lines of a body are renamed by renaming its six registers. -/
theorem renamed_pullLines {f : Nat → Nat} {m : Nat} (hkept : ∀ r < 7, f r = r)
    (hmoved : ∀ k < 6, f (n + k) = m + k) :
    (pullLines n).map (Instruction.renamed f) = pullLines m := by
  have hfirst : f n = m := hmoved 0 (by decide)
  simp [pullLines, texelLines, scalar, vector, lane, spread, Operand.ofType, Place.renamed, hfirst,
    hkept, hmoved]

theorem mentions_pullLines {r : Nat} : (∃ l ∈ pullLines n, l.Mentions r) ↔
    (1 ≤ r ∧ r < 7) ∨ (n ≤ r ∧ r < n + 6) := by
  simp [pullLines, texelLines, scalar, vector, lane, spread, Operand.ofType, Place.Mentions]
  omega

@[simp] theorem sets_line (m : Mnemonic) (dst : Operand) (srcs : List Operand) (t : ValueType)
    (home : Home) : (line m dst srcs).sets ⟨t, some home⟩ = (dst.place == .temp home.register) := rfl

theorem countP_sets_pullLines (hn : 7 ≤ n) {v : Variable}
    (hv : v ∈ [(declared unit).acc, (declared unit).index]) :
    (pullLines n).countP (·.sets v) = 1 := by
  have hfresh : ∀ r < 7, n ≠ r := by omega
  simp only [List.mem_cons, List.not_mem_nil, or_false] at hv
  rcases hv with rfl | rfl
  · simp [pullLines, texelLines, declared, scalar, vector, lane, Operand.ofType, hfresh]
  · simp [pullLines, texelLines, declared, scalar, vector, lane, Operand.ofType, hfresh]

theorem countP_sample_pullLines (slot : Int) :
    (pullLines n).countP (·.mnemonic == .sample slot) = if slot = 0 then 1 else 0 := by
  by_cases hslot : slot = 0
  · simp [pullLines, texelLines, line, hslot]
  · simp [pullLines, texelLines, line, hslot, Ne.symm hslot]

/-! ### The other lines -/

theorem mentions_freshLine (m : Mnemonic) (t : ValueType) (o : Operand) (r q : Nat) :
    (freshLine m t o r).Mentions q ↔ r = q ∨ o.place.Mentions q := by
  simp [freshLine, Instruction.Mentions, Operand.destination, Operand.source, Operand.signed,
    Operand.ofType, Place.Mentions]

theorem mentions_positionOperand {t : ValueType} {r q : Nat}
    (hq : (positionOperand target t r).place.Mentions q) : q = r ∨ q = r + 1 := by
  unfold positionOperand at hq
  split_ifs at hq
  · exact .inl hq.symm
  · cases hq
  · exact .inr hq.symm

theorem mentions_positionLines {t : ValueType} {l : Instruction} {r q : Nat}
    (hl : l ∈ positionLines target t r) (hq : l.Mentions q) : q = r ∨ q = r + 1 := by
  have hleading : ∀ {place : Place} {u : ValueType} {k : Nat}, place.Mentions q = False →
      ¬ (leading place u k).place.Mentions q := fun h h' => h.mp h'
  unfold positionLines at hl
  split_ifs at hl
  · rw [List.mem_singleton.mp hl, mentions_freshLine] at hq
    exact hq.elim (fun h => .inl h.symm) fun h => absurd h (hleading rfl)
  · cases hl
  · rw [List.mem_singleton.mp hl, mentions_freshLine] at hq
    exact hq.elim (fun h => .inl h.symm) fun h => absurd h (hleading rfl)
  · rcases List.mem_cons.mp hl with rfl | hl
    · exact ((mentions_freshLine _ _ _ _ _).mp hq).elim (fun h => .inl h.symm)
        fun h => absurd h (hleading rfl)
    · rw [List.mem_singleton.mp hl, mentions_freshLine] at hq
      exact hq.elim (fun h => .inr h.symm) fun h => .inl h.symm

theorem mentions_setUpLines {l : Instruction} {r : Nat} (hl : l ∈ setUpLines target)
    (hr : l.Mentions r) : r < 11 := by
  rcases List.mem_append.mp hl with hl | hl
  · rcases List.mem_append.mp hl with hl | hl
    · have hposition := mentions_positionLines hl hr
      omega
    · have hmentions : ∃ l ∈ [line .mov (scalar 0) [scalar 7]], l.Mentions r := ⟨l, hl, hr⟩
      simp [scalar, Operand.ofType, Place.Mentions] at hmentions
      omega
  · have hmentions : ∃ l ∈ texelLines 0 0 8 ++ _, l.Mentions r := ⟨l, hl, hr⟩
    simp [texelLines, scalar, vector, lane, Operand.ofType, Place.Mentions] at hmentions
    omega

theorem mentions_storeLines {l : Instruction} {r : Nat} (hl : l ∈ storeLines target n)
    (hr : l.Mentions r) : r < 11 ∨ n ≤ r := by
  rcases List.mem_append.mp hl with hl | hl
  · have hmentions : ∃ l ∈ texelLines 1 0 (n + 3) ++ _, l.Mentions r := ⟨l, hl, hr⟩
    simp [texelLines, scalar, vector, lane, spread, Operand.ofType, Place.Mentions] at hmentions
    omega
  rcases List.mem_append.mp hl with hl | hl
  · rcases List.mem_append.mp hl with hl | hl
    · have hposition := mentions_positionLines hl hr
      omega
    · rw [List.mem_singleton.mp hl, mentions_line] at hr
      simp [lane, Operand.ofType, Place.Mentions] at hr
      rcases hr with hr | hr
      · omega
      · have hposition := mentions_positionOperand hr
        omega
  · have hmentions : ∃ l ∈ [storeLine (n + 2) 0 (n + 1), storeLine (n + 2) 1 n], l.Mentions r :=
      ⟨l, hl, hr⟩
    simp [storeLine, Instruction.Mentions, Place.Mentions] at hmentions
    omega

/-! ### The program -/

/-- The code of a work item in parts: before the loop, the test of the loop, the rounds and after the
loop. -/
structure Parts where
  before : List Instruction
  test : Instruction
  limit : SourceOperand
  round : Nat → List Instruction
  after : List Instruction

namespace Parts

/-- The code of the parts with `n` rounds. -/
def code (p : Parts) (n : Nat) : List Line :=
  p.before.map .instruction ++ [.word .whileLoop] ++
    ([.instruction p.test, .test .breakTrue p.limit] ++
      (List.range n).flatMap fun i => (p.round i).map .instruction) ++
    [.word .endLoop] ++ p.after.map .instruction

/-- The code is unrolled: the loop is left by a comparison, all rounds have the same lines up to the
names of six registers, which stand nowhere else, and a round has one sample, of the positions, and
writes each variable that the rounds share once. -/
structure Unrolled (p : Parts) (v : Variables) (n : Nat) : Prop where
  test_ge : p.test.mnemonic = .ge
  limit_test : p.limit.place = p.test.dst.place
  length : ∀ i < n, (p.round i).length = 14
  renamed : ∀ i < n, p.round i =
    (p.round 0).map (Instruction.renamed fun r => if r < 11 then r else r + 6 * i)
  fresh : ∀ i < n, ∀ r, 11 ≤ r →
    ((∃ l ∈ p.round i, l.Mentions r) ↔ 11 + 6 * i ≤ r ∧ r < 11 + 6 * (i + 1))
  apart : ∀ l ∈ p.before ++ p.test :: p.after, ∀ r, l.Mentions r → r < 11 ∨ 11 + 6 * n ≤ r
  sample_once : ∀ i < n, ∀ slot,
    (p.round i).countP (·.mnemonic == .sample slot) = if slot = 0 then 1 else 0
  written_once : ∀ i < n, ∀ w ∈ [v.acc, v.index], (p.round i).countP (·.sets w) = 1

end Parts

/-- The parts of the kernel unrolled for `n` bodies. -/
def parts (target : Target) (n : Nat) : Parts :=
  ⟨setUpLines target, limitLine, (scalar 10).source, fun i => pullLines (11 + 6 * i),
    storeLines target (11 + 6 * n)⟩

theorem parts_unrolled (target : Target) (unit : UnitId) (n : Nat) :
    (parts target n).Unrolled (declared unit) n where
  test_ge := rfl
  limit_test := rfl
  length := fun i _ => rfl
  renamed := by
    intro i _
    refine (renamed_pullLines (fun r hr => ?_) fun k _ => ?_).symm
    · exact if_pos (by omega)
    · have hk : ¬ 11 + 6 * 0 + k < 11 := by omega
      rw [if_neg hk]
      omega
  fresh := by
    intro i _ r hr
    refine mentions_pullLines.trans ?_
    omega
  apart := by
    intro l hl r hr
    rcases List.mem_append.mp hl with hl | hl
    · exact .inl (mentions_setUpLines hl hr)
    · rcases List.mem_cons.mp hl with rfl | hl
      · have hlimit : limitLine.Mentions r := hr
        simp [limitLine, scalar, lane, Operand.ofType, Place.Mentions] at hlimit
        omega
      · exact mentions_storeLines hl hr
  sample_once := fun i _ slot => countP_sample_pullLines slot
  written_once := fun i _ w hw => countP_sets_pullLines (by omega) hw

/-! ### The kernel -/

theorem declareVariables_ok {s : Assembler} (hphase : s.phase = .building) (hreport : s.report = none)
    (hnext : s.draft.next = 0) :
    declareVariables s = .ok (declared s.unit, { s with draft := s.draft.taken 7 }) := by
  have hdeclare : ∀ {t : ValueType} (i : Nat), t.valid = true →
      Build.declare t { s with draft := s.draft.taken i } =
        .ok (⟨t, some ⟨s.unit, i⟩⟩, { s with draft := s.draft.taken (i + 1) }) := by
    intro t i ht
    have hok := declare_taken ht hphase hreport i
    rwa [hnext, Nat.zero_add] at hok
  have hfirst : Build.declare .float1 s =
      .ok (⟨.float1, some ⟨s.unit, 0⟩⟩, { s with draft := s.draft.taken 1 }) := hdeclare 0 rfl
  rw [declareVariables, bind_of_ok hfirst, bind_of_ok (hdeclare 1 rfl), bind_of_ok (hdeclare 2 rfl),
    bind_of_ok (hdeclare 3 rfl), bind_of_ok (hdeclare 4 rfl), bind_of_ok (hdeclare 5 rfl),
    bind_of_ok (hdeclare 6 rfl)]
  rfl

/-- The kernel in a new unit, unrolled for some bodies. -/
theorem run_unrolled {s : Assembler} {unroll : Int} (hn : 0 < n) (hunroll : unroll = n)
    (hs : s.Open target unit []) (hdraft : s.draft = {}) :
    ∃ s' : Assembler, (body unroll).run s = .ok (none, s') ∧ s'.Open target unit [] ∧
      s'.draft.code.toList = (parts target n).code n ∧ s'.draft.instructions = s'.draft.code.toList.length ∧
      s'.draft.mark =
        ⟨16 + 6 * n + (if target = .compute then 0 else 2), unitTable⟩ := by
  -- The states after the declarations, after the loop, after the second declarations and at the end.
  let s₁ : Assembler := { s with draft := s.draft.taken 7 }
  have hdeclared : declareVariables s = .ok (declared unit, s₁) := by
    rw [← hs.unit_eq]
    exact declareVariables_ok hs.phase hs.report (by rw [hdraft])
  have hs₁ : s₁.Open target unit [] := ⟨hs.phase, hs.report, hs.target_eq, hs.unit_eq, hs.flow_eq⟩
  have hmark₁ : s₁.draft.mark = ⟨7, {}⟩ := by
    change s.draft.mark.taken 7 = _
    rw [hdraft]
    rfl
  obtain ⟨_, s₂, hmakes, hmark₂⟩ := (setUp_writes.append (loop_writes n)) s₁ hs₁ hmark₁
  have hs₂ := hmakes.isOpen hs₁
  rw [roundMark, roundLiterals, if_neg hn.ne'] at hmark₂
  have hnext : s₂.draft.next = 11 + 6 * n := congrArg Mark.next hmark₂
  have hdeclare : ∀ {t : ValueType} (i : Nat), t.valid = true →
      Build.declare t { s₂ with draft := s₂.draft.taken i } =
        .ok (⟨t, some ⟨unit, 11 + 6 * n + i⟩⟩, { s₂ with draft := s₂.draft.taken (i + 1) }) := by
    intro t i ht
    rw [← hnext, ← hs₂.unit_eq]
    exact declare_taken ht hs₂.phase hs₂.report i
  have hvelocity : Build.declare .float4 s₂ = .ok (⟨.float4, some ⟨unit, 11 + 6 * n⟩⟩, _) :=
    hdeclare 0 rfl
  let s₃ : Assembler := { s₂ with draft := s₂.draft.taken 3 }
  have hs₃ : s₃.Open target unit [] :=
    ⟨hs₂.phase, hs₂.report, hs₂.target_eq, hs₂.unit_eq, hs₂.flow_eq⟩
  have hmark₃ : s₃.draft.mark = ⟨11 + 6 * n + 3, oneTable⟩ := by
    change s₂.draft.mark.taken 3 = _
    rw [hmark₂]
    rfl
  obtain ⟨_, s₄, hmakes', hmark₄⟩ := store_writes s₃ hs₃ hmark₃
  have hs₄ := hmakes'.isOpen hs₃
  have hcode : s₄.draft.code.toList = (setUpLines target).map .instruction ++ loopLines n ++
      (storeLines target (11 + 6 * n)).map .instruction := by
    have hempty : s₁.draft.code.toList = [] := by
      change s.draft.code.toList = []
      rw [hdraft]
    have hmid : s₃.draft.code.toList = s₂.draft.code.toList := rfl
    rw [hmakes'.code, hmid, hmakes.code, hempty, List.nil_append]
  refine ⟨s₄, ?_, hs₄, ?_, ?_, ?_⟩
  · have hpositive : ¬ unroll < 1 := by omega
    have hcount : unroll.toNat = n := by omega
    change body unroll s = _
    unfold body
    rw [if_neg hpositive, hcount, bind_of_ok hdeclared, bind_of_ok (perform_ok hmakes),
      bind_of_ok hvelocity, bind_of_ok (hdeclare 1 rfl), bind_of_ok (hdeclare 2 rfl),
      bind_of_ok (perform_ok hmakes')]
    change Except.ok (s₄.report.map KernelError.report, s₄) = _
    rw [hs₄.report]
    rfl
  · rw [hcode]
    simp [parts, Parts.code, loopLines]
  · have hstart : s₁.draft.instructions = 0 := by
      change s.draft.instructions = 0
      rw [hdraft]
    have hmid : s₃.draft.instructions = s₂.draft.instructions := rfl
    rw [hmakes'.counted, hmid, hmakes.counted, hstart, hcode]
    simp only [List.length_append]
    omega
  · rw [hmark₄]
    congr 1
    omega

theorem length_code (target : Target) (n : Nat) : ((parts target n).code n).length =
    21 + 14 * n + (if target = .compute then 0 else 2) := by
  have hfloat : (positionLines target .float1 7).length = 1 := length_positionLines _ _ _
  have huint : (positionLines target .uint1 (11 + 6 * n + 5)).length =
      if target = .compute then 0 else 2 := length_positionLines _ _ _
  have hrounds : ((List.range n).flatMap fun i =>
      (pullLines (11 + 6 * i)).map Line.instruction).length = n * 14 := by
    have hround : ∀ i, (pullLines (11 + 6 * i)).length = 14 := fun i => rfl
    simp only [List.length_flatMap, List.length_map, hround, List.map_const', List.sum_replicate,
      List.length_range, smul_eq_mul]
  simp only [parts, Parts.code, setUpLines, storeLines, texelLines, List.length_append,
    List.length_map, List.length_cons, List.length_nil, hrounds, hfloat, huint]
  omega

/-- **The kernel grows by the same round for every body.** In a new unit of either target the kernel
unrolled for at least one body succeeds. Its code is one loop that is left by a comparison and has as
many rounds as bodies. All rounds have the same fourteen lines up to the names of their six registers,
which stand nowhere else in the code. A round has one sample, of the positions, and writes the sum and
the index once each. The same three literals are declared for every number of bodies, and the registers
and instructions are counted. For fewer bodies than one the kernel gives up and leaves the unit as it
was. -/
theorem body_grows_by_round (unroll : Int) {s₀ s : Assembler} (hbegin : s₀.begin = .ok s) :
    (1 ≤ unroll → ∃ (v : Variables) (s₁ : Assembler) (p : Parts) (s' : Assembler),
      declareVariables.run s = .ok (v, s₁) ∧ (body unroll).run s = .ok (none, s') ∧
      s'.report = none ∧ s'.flow = [] ∧ s'.draft.code.toList = p.code unroll.toNat ∧
      p.Unrolled v unroll.toNat ∧
      s'.draft.literals.order =
        [.replicated 0x00000000, .replicated 0x3F800000, .replicated 0x00000001] ∧
      s'.registers = (if s.target = .compute then 16 else 18) + 6 * unroll.toNat ∧
      s'.instructions = (if s.target = .compute then 21 else 23) + 14 * unroll.toNat) ∧
    (unroll < 1 → (body unroll).run s = .ok (some (.unroll unroll), s)) := by
  obtain ⟨hphase, hreport, hdraft⟩ := Assembler.begin_spec hbegin
  have hflow : s.flow = [] := by
    unfold Assembler.begin at hbegin
    split_ifs at hbegin
    cases hbegin
    rfl
  refine ⟨fun h => ?_, fun h => ?_⟩
  · have hn : 0 < unroll.toNat := by omega
    have hunroll : unroll = unroll.toNat := by omega
    obtain ⟨s', hrun, hs', hcode, hcounted, hmark⟩ :=
      run_unrolled hn hunroll ⟨hphase, hreport, rfl, rfl, hflow⟩ hdraft
    have hdeclared := declareVariables_ok hphase hreport (by rw [hdraft])
    refine ⟨declared s.unit, _, parts s.target unroll.toNat, s', hdeclared, hrun, hs'.report,
      hs'.flow_eq, hcode, parts_unrolled _ _ _, ?_, ?_, ?_⟩
    · exact congrArg (fun p : Draft.Mark => p.literals.order) hmark
    · have hregisters : s'.registers =
          16 + 6 * unroll.toNat + (if s.target = .compute then 0 else 2) := congrArg Mark.next hmark
      rw [hregisters]
      split_ifs <;> omega
    · have hinstructions : s'.instructions = s'.draft.code.toList.length := hcounted
      rw [hinstructions, hcode, length_code]
      split_ifs <;> omega
  · change body unroll s = _
    unfold body
    rw [if_pos h]
    rfl

/-- The premises can be met: three bodies in a round of a compute program. -/
theorem body_grows_by_three_rounds :
    let s : Assembler := { target := .compute, phase := .building, generation := 1 }
    ({ target := .compute } : Assembler).begin = .ok s ∧
      ∃ (v : Variables) (p : Parts) (s' : Assembler), (body 3).run s = .ok (none, s') ∧
        s'.draft.code.toList = p.code 3 ∧ p.Unrolled v 3 ∧ s'.draft.literals.order.length = 3 ∧
        s'.registers = 34 ∧ s'.instructions = 63 := by
  intro s
  have hbegin : ({ target := .compute } : Assembler).begin = .ok s := rfl
  obtain ⟨hgood, -⟩ := body_grows_by_round 3 hbegin
  obtain ⟨v, -, p, s', -, hrun, -, -, hcode, hp, hliterals, hregisters, hinstructions⟩ :=
    hgood (by decide)
  exact ⟨hbegin, v, p, s', hrun, hcode, hp, by rw [hliterals]; rfl, hregisters, hinstructions⟩

end NBody

end ShaderIL
