import ShaderIL.Kernel.NBody
import ShaderIL.Proofs.Kernel.Vocabulary

/-!
# The pieces of gravitation

The code of the kernel is known line by line, whatever number of bodies a round of its loop takes.
`pullLines` are the lines of one body; they have six registers of their own, so those of the next body
are the same six registers later (`rounds_write`). The first body declares the last literal of the loop;
from the second on there is none to declare.
-/

namespace ShaderIL.NBody

open Assembler Expr Build
open Draft (Mark)

/-! ### Lines -/

/-- The variables of a work item in a unit. -/
def declared (unit : UnitId) : Variables :=
  ⟨⟨.float1, some ⟨unit, 0⟩⟩, ⟨.float4, some ⟨unit, 1⟩⟩, ⟨.float4, some ⟨unit, 2⟩⟩,
    ⟨.float1, some ⟨unit, 3⟩⟩, ⟨.float4, some ⟨unit, 4⟩⟩, ⟨.float4, some ⟨unit, 5⟩⟩,
    ⟨.float1, some ⟨unit, 6⟩⟩⟩

/-- A line that computes an operand from others. -/
def line (m : Mnemonic) (dst : Operand) (srcs : List Operand) : Instruction :=
  ⟨m, dst.destination, srcs.map Operand.source⟩

/-- A register with one component. -/
def scalar (r : Nat) : Operand := Operand.ofType (.temp r) .float1

/-- A register with four components. -/
def vector (r : Nat) : Operand := Operand.ofType (.temp r) .float4

/-- A component of a place. -/
def lane (place : Place) (l : Lane) : Operand := ⟨place, ⟨[l]⟩, 1⟩

/-- A component of a place four times. -/
def spread (place : Place) (l : Lane) : Operand := ⟨place, .broadcast l 4, 1⟩

/-- The lines of a texel for the body in a register, with two registers from `n` on. -/
def texelLines (slot : Int) (body n : Nat) : List Instruction :=
  [line .mov (lane (.temp n) .x) [scalar body],
    line .mov (lane (.temp n) .y) [lane (.literal 0) .x],
    line (.sample slot) (vector (n + 1)) [Operand.ofType (.temp n) .float2]]

/-- The lines before the loop. -/
def setUpLines (target : Target) : List Instruction :=
  (positionLines target .float1 7 ++ [line .mov (scalar 0) [scalar 7]]) ++
  (texelLines 0 0 8 ++
    [line .mov (vector 1) [vector 9],
      line .mov (vector 2) [Operand.ofType (.literal 0) .float4],
      line .mov (scalar 3) [lane (.literal 0) .x]])

/-- The line that compares the index with the number of bodies. -/
def limitLine : Instruction := line .ge (scalar 10) [scalar 3, lane (.constant 0 0) .x]

/-- The lines of the pull of one body, with six registers from `n` on. -/
def pullLines (n : Nat) : List Instruction :=
  texelLines 0 3 n ++
  [line .mov (vector 4) [vector (n + 1)],
    line .sub (vector 5) [vector 4, vector 1],
    line .mov (lane (.temp 5) .w) [lane (.literal 0) .x],
    line .dot4 (scalar (n + 2)) [vector 5, vector 5],
    line .add (scalar (n + 3)) [scalar (n + 2), lane (.constant 0 0) .z],
    line .rsqrt (scalar 6) [scalar (n + 3)],
    line .mul (scalar (n + 4)) [scalar 6, scalar 6],
    line .mul (scalar 6) [scalar (n + 4), scalar 6],
    line .mul (scalar (n + 5)) [lane (.temp 4) .w, scalar 6],
    line .mad (vector 2) [vector 5, spread (.temp (n + 5)) .x, vector 2],
    line .add (scalar 3) [scalar 3, lane (.literal 1) .x]]

/-- The lines after the loop, with the registers from `n` on. -/
def storeLines (target : Target) (n : Nat) : List Instruction :=
  (texelLines 1 0 (n + 3) ++
    [line .mad (vector n) [vector 2, spread (.constant 0 0) .y, vector (n + 4)],
      line .mad (vector (n + 1)) [vector n, spread (.constant 0 0) .y, vector 1],
      line .mov (lane (.temp (n + 1)) .w) [lane (.temp 1) .w]]) ++
  ((positionLines target .uint1 (n + 5) ++
      [line .ishl (Operand.ofType (.temp (n + 2)) .uint1)
        [positionOperand target .uint1 (n + 5), lane (.literal 2) .x]]) ++
    [storeLine (n + 2) 0 (n + 1), storeLine (n + 2) 1 n])

/-! ### Operands -/

/-- Zero in floats. -/
def zeroBits : Quad := .replicated 0

/-- One in floats. -/
def oneBits : Quad := .replicated 0x3F800000

/-- One in integers. -/
def unitBits : Quad := .replicated 1

/-- The literals before the loop. -/
def zeroTable : LiteralTable := LiteralTable.add {} zeroBits

/-- The literals after the loop. -/
def oneTable : LiteralTable := zeroTable.add oneBits

/-- The literals of the kernel. -/
def unitTable : LiteralTable := oneTable.add unitBits

/-- Zero is the first literal of the table. -/
def HasZero (τ : LiteralTable) : Prop := τ.numbers.lookup zeroBits = some 0

theorem hasZero_zeroTable : HasZero zeroTable := rfl

theorem hasZero_oneTable : HasZero oneTable := rfl

variable {target : Target} {unit : UnitId} {flow : List Block} {n : Nat} {τ : LiteralTable} {p : Mark}

theorem HasZero.interned (h : HasZero p.literals) : p.interned zeroBits = p := by
  rw [Mark.interned, LiteralTable.add_of_some h]

theorem scalar_yields (r : Nat) :
    Yields target unit (.var ⟨.float1, some ⟨unit, r⟩⟩) .float1 p (scalar r) [] p := Yields.var rfl rfl

theorem vector_yields (r : Nat) :
    Yields target unit (.var ⟨.float4, some ⟨unit, r⟩⟩) .float4 p (vector r) [] p := Yields.var rfl rfl

theorem mass_yields (r : Nat) :
    Yields target unit (mass ⟨.float4, some ⟨unit, r⟩⟩) .float1 p (lane (.temp r) .w) [] p :=
  Yields.component r .w

theorem parameter_yields {name : String} {l : Lane} (hname : Text.Spells .float1 name)
    (ho : (⟨0, 1, 0, .float1, some name⟩ : BufferField).operand = .ok (lane (.constant 0 0) l)) :
    Yields target unit (.field ⟨0, 1, 0, .float1, some name⟩) .float1 p (lane (.constant 0 0) l) [] p :=
  Yields.field (Costs.parameter hname) ho

theorem count_yields : Yields target unit count .float1 p (lane (.constant 0 0) .x) [] p :=
  parameter_yields (Text.spells_iff.mpr ⟨⟨[.x]⟩, rfl, rfl⟩) rfl

theorem timeStep_yields : Yields target unit timeStep .float1 p (lane (.constant 0 0) .y) [] p :=
  parameter_yields (Text.spells_iff.mpr ⟨⟨[.y]⟩, rfl, rfl⟩) rfl

theorem softening_yields : Yields target unit softening .float1 p (lane (.constant 0 0) .z) [] p :=
  parameter_yields (Text.spells_iff.mpr ⟨⟨[.z]⟩, rfl, rfl⟩) rfl

theorem zero_yields {t : ValueType} (ht : t.valid = true) (hk : t.kind = .float)
    (hp : p.literals.number zeroBits = 0) : Yields target unit (.ofInt t 0) t p
      (Operand.ofType (.literal 0) t) [] (p.interned zeroBits) := by
  have hw : (Host.word 0).words t.kind = .ok [0] := by
    rw [hk]
    rfl
  rw [← hp]
  exact Yields.ofInt ht hw

theorem texel_yields {i : Input} (r : Nat) (hi : i.error = none) (ht : i.type = .float4)
    (hp : p.literals.number zeroBits = 0) :
    Yields target unit (texel i ⟨.float1, some ⟨unit, r⟩⟩) .float4 p (vector (p.next + 1))
      (texelLines i.slot r p.next) ((p.interned zeroBits).taken 2) := by
  have hmerge : BinaryOp.merge.overload? .float1 .float1 = some _ := rfl
  have hpair : Yields target unit _ _ p _ _ _ :=
    Yields.binary (scalar_yields r) (zero_yields rfl rfl hp) hmerge
  have hsample := Yields.sample hpair hi
  rw [ht] at hsample
  exact hsample

theorem HasZero.zero_yields {t : ValueType} (h : HasZero p.literals) (ht : t.valid = true)
    (hk : t.kind = .float) :
    Yields target unit (.ofInt t 0) t p (Operand.ofType (.literal 0) t) [] p := by
  have hyields : Yields target unit _ _ p _ _ _ :=
    NBody.zero_yields ht hk (LiteralTable.number_of_some h)
  rwa [h.interned] at hyields

theorem HasZero.texel_yields {i : Input} (h : HasZero p.literals) (r : Nat) (hi : i.error = none)
    (ht : i.type = .float4) :
    Yields target unit (texel i ⟨.float1, some ⟨unit, r⟩⟩) .float4 p (vector (p.next + 1))
      (texelLines i.slot r p.next) (p.taken 2) := by
  have hyields : Yields target unit _ _ p _ _ _ :=
    NBody.texel_yields r hi ht (LiteralTable.number_of_some h)
  rwa [h.interned] at hyields

/-! ### Before the loop -/

theorem setUp_writes : Writes target unit flow (setUp (declared unit)) ⟨7, {}⟩
    ((setUpLines target).map .instruction) ⟨10, zeroTable⟩ := by
  have hposition : Yields target unit (.position .float1) .float1 ⟨7, {}⟩ (scalar 7)
      (positionLines target .float1 7) ⟨8, {}⟩ := by
    have hyields : Yields target unit (.position .float1) .float1 ⟨7, {}⟩ _ _ _ := Yields.position rfl
    rw [length_positionLines] at hyields
    exact hyields
  have hbody : Yields target unit (texel bodies (declared unit).id) .float4 ⟨8, {}⟩ (vector 9)
      (texelLines 0 0 8) ⟨10, zeroTable⟩ := texel_yields 0 rfl rfl rfl
  have hzero : ∀ {t : ValueType}, t.valid = true → t.kind = .float →
      Yields target unit (.ofInt t 0) t ⟨10, zeroTable⟩ (Operand.ofType (.literal 0) t) []
        ⟨10, zeroTable⟩ := hasZero_zeroTable.zero_yields
  have hid : Writes target unit flow [.set (declared unit).id _] _ _ _ := Writes.set_move hposition rfl
  have hself : Writes target unit flow [.set (declared unit).self _] _ _ _ := Writes.set_move hbody rfl
  have hacc : Writes target unit flow [.set (declared unit).acc _] _ _ _ :=
    Writes.set_move (hzero rfl rfl) rfl
  have hindex : Writes target unit flow [.set (declared unit).index _] _ _ _ :=
    Writes.set_move (hzero rfl rfl) rfl
  rw [setUpLines, List.map_append]
  exact hid.append (hself.append (hacc.append hindex))

/-! ### The loop -/

theorem limit_writes : Writes target unit (.loop :: flow)
    [.breakIf (.binary .ge (.var (declared unit).index) count)] ⟨n, τ⟩
    [.instruction (line .ge (scalar n) [scalar 3, lane (.constant 0 0) .x]),
      .test .breakTrue (scalar n).source] ⟨n + 1, τ⟩ := by
  have hge : BinaryOp.ge.overload? .float1 .float1 = some _ := rfl
  exact Writes.breakIf (Yields.binary (scalar_yields 3) count_yields hge) rfl

theorem other_writes (hτ : HasZero τ) : Writes target unit flow
    [.set (declared unit).other (texel bodies (declared unit).index)] ⟨n, τ⟩
    ((texelLines 0 3 n ++ [line .mov (vector 4) [vector (n + 1)]]).map .instruction)
    ⟨n + 2, τ⟩ := by
  have hbody : Yields target unit (texel bodies (declared unit).index) .float4 ⟨n, τ⟩
      (vector (n + 1)) (texelLines 0 3 n) ⟨n + 2, τ⟩ := hτ.texel_yields 3 rfl rfl
  exact Writes.set_move hbody rfl

theorem distance_writes : Writes target unit flow [.set (declared unit).distance
      (.binary .sub (.var (declared unit).other) (.var (declared unit).self))] p
    [.instruction (line .sub (vector 5) [vector 4, vector 1])] p := by
  have hsub : BinaryOp.sub.overload? .float4 .float4 = some _ := rfl
  exact Writes.set_binary (vector_yields 4) (vector_yields 1) hsub rfl

theorem clear_writes (hτ : HasZero τ) : Writes target unit flow
    [.assign (some (.view (declared unit).distance "w")) (.ofInt .float1 0)] ⟨n, τ⟩
    [.instruction (line .mov (lane (.temp 5) .w) [lane (.literal 0) .x])] ⟨n, τ⟩ := by
  have hzero : Yields target unit (.ofInt .float1 0) .float1 ⟨n, τ⟩
      (lane (.literal 0) .x) [] ⟨n, τ⟩ := hτ.zero_yields rfl rfl
  exact Writes.set_lane rfl hzero rfl

theorem inverse_writes : Writes target unit flow [.set (declared unit).inverse (.unary .rsqrt
      (.binary .add (.binary .dot (.var (declared unit).distance) (.var (declared unit).distance))
        softening))] ⟨n, τ⟩
    ([line .dot4 (scalar n) [vector 5, vector 5],
      line .add (scalar (n + 1)) [scalar n, lane (.constant 0 0) .z],
      line .rsqrt (scalar 6) [scalar (n + 1)]].map .instruction) ⟨n + 2, τ⟩ := by
  have hdot : BinaryOp.dot.overload? .float4 .float4 = some _ := rfl
  have hadd : BinaryOp.add.overload? .float1 .float1 = some _ := rfl
  have hrsqrt : UnaryOp.rsqrt.overload? .float1 = some _ := rfl
  have hsquare : Yields target unit _ _ ⟨n, τ⟩ _ _ _ :=
    Yields.binary (vector_yields 5) (vector_yields 5) hdot
  exact Writes.set_unary (Yields.binary hsquare softening_yields hadd) hrsqrt rfl

theorem cube_writes : Writes target unit flow [.set (declared unit).inverse (.binary .mul
      (.binary .mul (.var (declared unit).inverse) (.var (declared unit).inverse))
      (.var (declared unit).inverse))] ⟨n, τ⟩
    ([line .mul (scalar n) [scalar 6, scalar 6], line .mul (scalar 6) [scalar n, scalar 6]].map
      .instruction) ⟨n + 1, τ⟩ := by
  have hmul : BinaryOp.mul.overload? .float1 .float1 = some _ := rfl
  have hsquare : Yields target unit _ _ ⟨n, τ⟩ _ _ _ :=
    Yields.binary (scalar_yields 6) (scalar_yields 6) hmul
  exact Writes.set_binary hsquare (scalar_yields 6) hmul rfl

theorem acc_writes : Writes target unit flow [.set (declared unit).acc (.ternary .mad
      (.var (declared unit).distance)
      (.binary .mul (mass (declared unit).other) (.var (declared unit).inverse))
      (.var (declared unit).acc))] ⟨n, τ⟩
    ([line .mul (scalar n) [lane (.temp 4) .w, scalar 6],
      line .mad (vector 2) [vector 5, spread (.temp n) .x, vector 2]].map .instruction)
    ⟨n + 1, τ⟩ := by
  have hmul : BinaryOp.mul.overload? .float1 .float1 = some _ := rfl
  have hmad : TernaryOp.mad.overload? .float4 .float1 .float4 = some _ := rfl
  have hfactor : Yields target unit _ _ ⟨n, τ⟩ _ _ _ :=
    Yields.binary (mass_yields 4) (scalar_yields 6) hmul
  exact Writes.set_ternary (vector_yields 5) hfactor (vector_yields 2) hmad rfl

/-- One is the second literal; it is declared unless it is there. -/
theorem index_writes (hτ : τ = zeroTable ∨ τ = oneTable) : Writes target unit flow
    [.set (declared unit).index (.withInt .add (.var (declared unit).index) 1)] ⟨n, τ⟩
    [.instruction (line .add (scalar 3) [scalar 3, lane (.literal 1) .x])]
    ⟨n, oneTable⟩ := by
  have hindex : Yields target unit (.var (declared unit).index) .float1 ⟨n, τ⟩ (scalar 3)
      [] ⟨n, τ⟩ := scalar_yields 3
  have hw : (Host.word 1).words ValueType.float1.kind = .ok [0x3F800000] := rfl
  have hone : Yields target unit (.ofInt .float1 1) .float1 ⟨n, τ⟩
      (lane (.literal 1) .x) [] ⟨n, oneTable⟩ := by
    rcases hτ with rfl | rfl
    · exact Yields.ofInt rfl hw
    · exact Yields.ofInt rfl hw
  have hadd : BinaryOp.add.overload? .float1 .float1 = some _ := rfl
  rw [withInt_eq hindex.type_eq rfl]
  exact Writes.set_binary hindex hone hadd rfl

theorem pull_writes (hτ : τ = zeroTable ∨ τ = oneTable) :
    Writes target unit flow (pull (declared unit)) ⟨n, τ⟩
      ((pullLines n).map .instruction) ⟨n + 6, oneTable⟩ := by
  have hzero : HasZero τ := by
    rcases hτ with rfl | rfl
    · exact hasZero_zeroTable
    · exact hasZero_oneTable
  exact (other_writes hzero).append (distance_writes.append ((clear_writes hzero).append
    (inverse_writes.append (cube_writes.append (acc_writes.append (index_writes hτ))))))

/-- The literals before a round. -/
def roundLiterals (i : Nat) : LiteralTable := if i = 0 then zeroTable else oneTable

/-- How far the draft has got before a round. -/
def roundMark (i : Nat) : Mark := ⟨11 + 6 * i, roundLiterals i⟩

/-- **The rounds of the loop** differ by six registers. -/
theorem rounds_write (n : Nat) : Writes target unit flow
    (List.replicate n (pull (declared unit))).flatten (roundMark 0)
    ((List.range n).flatMap fun i => (pullLines (11 + 6 * i)).map .instruction) (roundMark n) := by
  refine Writes.rounds (fun i => pull_writes ?_) n
  unfold roundLiterals
  split_ifs
  · exact .inl rfl
  · exact .inr rfl

/-- The lines of the loop. -/
def loopLines (n : Nat) : List Line :=
  .word .whileLoop ::
    ([.instruction limitLine, .test .breakTrue (scalar 10).source] ++
      (List.range n).flatMap fun i => (pullLines (11 + 6 * i)).map .instruction) ++
  [.word .endLoop]

theorem loop_writes (n : Nat) : Writes target unit flow (loop (declared unit) n) ⟨10, zeroTable⟩
    (loopLines n) (roundMark n) := by
  have hbody : Writes target unit (.loop :: flow) _ ⟨10, zeroTable⟩ _ (roundMark n) :=
    limit_writes.append (rounds_write n)
  exact hbody.loop

/-! ### After the loop -/

theorem velocity_writes (hτ : HasZero τ) : Writes target unit flow [.set ⟨.float4, some ⟨unit, n⟩⟩
      (.ternary .mad (.var (declared unit).acc) timeStep (texel velocities (declared unit).id))]
    ⟨n + 3, τ⟩
    ((texelLines 1 0 (n + 3) ++ [line .mad (vector n) [vector 2, spread (.constant 0 0) .y,
      vector (n + 4)]]).map .instruction) ⟨n + 5, τ⟩ := by
  have hold : Yields target unit (texel velocities (declared unit).id) .float4 ⟨n + 3, τ⟩
      (vector (n + 4)) (texelLines 1 0 (n + 3)) ⟨n + 5, τ⟩ := hτ.texel_yields 0 rfl rfl
  have hmad : TernaryOp.mad.overload? .float4 .float1 .float4 = some _ := rfl
  exact Writes.set_ternary (vector_yields 2) timeStep_yields hold hmad rfl

theorem position_writes (n : Nat) : Writes target unit flow [.set ⟨.float4, some ⟨unit, n + 1⟩⟩
      (.ternary .mad (.var ⟨.float4, some ⟨unit, n⟩⟩) timeStep (.var (declared unit).self))] p
    [.instruction (line .mad (vector (n + 1)) [vector n, spread (.constant 0 0) .y, vector 1])] p := by
  have hmad : TernaryOp.mad.overload? .float4 .float1 .float4 = some _ := rfl
  exact Writes.set_ternary (vector_yields n) timeStep_yields (vector_yields 1) hmad rfl

theorem mass_writes (n : Nat) : Writes target unit flow
    [.assign (some (.view ⟨.float4, some ⟨unit, n⟩⟩ "w")) (mass (declared unit).self)] p
    [.instruction (line .mov (lane (.temp n) .w) [lane (.temp 1) .w])] p :=
  Writes.set_lane rfl (mass_yields 1) rfl

theorem base_writes (n : Nat) : Writes target unit flow
    [.set ⟨.uint1, some ⟨unit, n + 2⟩⟩ (.withInt .shl (.position .uint1) 1)]
    ⟨n + 5, oneTable⟩
    ((positionLines target .uint1 (n + 5) ++ [line .ishl (Operand.ofType (.temp (n + 2)) .uint1)
      [positionOperand target .uint1 (n + 5), lane (.literal 2) .x]]).map .instruction)
    ⟨n + 5 + (if target = .compute then 0 else 2), unitTable⟩ := by
  have hposition : Yields target unit (.position .uint1) .uint1 ⟨n + 5, oneTable⟩ _ _ _ :=
    Yields.position rfl
  rw [length_positionLines] at hposition
  have hw : (Host.word 1).words ValueType.uint1.kind = .ok [1] := rfl
  have hone : Yields target unit (.ofInt .uint1 1) .uint1
      ⟨n + 5 + (if target = .compute then 0 else 2), oneTable⟩ (lane (.literal 2) .x) []
      ⟨n + 5 + (if target = .compute then 0 else 2), unitTable⟩ :=
    Yields.ofInt rfl hw
  have hshl : BinaryOp.shl.overload? .uint1 .uint1 = some _ := rfl
  rw [withInt_eq hposition.type_eq rfl, ← List.append_nil (positionLines target .uint1 (n + 5))]
  exact Writes.set_binary hposition hone hshl rfl

theorem store_writes : Writes target unit flow
    (store (declared unit) ⟨.float4, some ⟨unit, n⟩⟩ ⟨.float4, some ⟨unit, n + 1⟩⟩
      ⟨.uint1, some ⟨unit, n + 2⟩⟩) ⟨n + 3, oneTable⟩
    ((storeLines target n).map .instruction)
    ⟨n + 5 + (if target = .compute then 0 else 2), unitTable⟩ := by
  have hfirst : Writes target unit flow _ ⟨n + 3, oneTable⟩ _ ⟨n + 5, oneTable⟩ :=
    (velocity_writes hasZero_oneTable).append ((position_writes n).append (mass_writes (n + 1)))
  have hstores : ∀ p : Mark, Writes target unit flow _ p _ p := fun p =>
    (Writes.store (n + 2) 0 (n + 1)).append (Writes.store (n + 2) 1 n)
  rw [storeLines, List.map_append]
  refine hfirst.append ?_
  rw [List.map_append]
  exact (base_writes n).append (hstores _)

end ShaderIL.NBody
