import ShaderIL.Kernel.MatMul
import ShaderIL.Proofs.Kernel.Vocabulary

/-!
# The pieces of matrix multiplication

The kernel is generated by nested loops over a tile of any size. Each piece of it has a lemma on what it
adds to a unit: the products and the stores are known line by line (`multiplyAdd_adds`,
`storeRow_adds`), of the rest the registers and the mnemonics. `Tile.Round` is what a round of the loop
consists of, `Tile.Saved` what stands after the loop.
-/

namespace ShaderIL.MatMul

open Assembler Expr Build

/-! ### Registers -/

namespace Tile

variable (t : Tile)

/-- The register of the accumulator of a row and a texel. -/
def accRegister (i j : Nat) : Nat := i * t.across + j

/-- The first register of the texels of a row of both matrices, or the one behind the last row. -/
def rowStart (h : Nat) : Nat := 4 * t.down * t.across + h * (t.down + t.across)

/-- The register of a texel of the left matrix. -/
def leftRegister (h i : Nat) : Nat := t.rowStart h + i

/-- The register of a texel of the right matrix. -/
def rightRegister (h j : Nat) : Nat := t.rowStart h + t.down + j

/-- The register of the index of the row that is stored. -/
def indexRegister : Nat := 4 * t.down * t.across + 9 * (t.across + t.down)

/-- The texels of a row of both matrices in a unit. -/
def row (unit : UnitId) (h : Nat) : Row :=
  ⟨variablesFrom unit .float4 (t.rowStart h) t.down,
    variablesFrom unit .float4 (t.rowStart h + t.down) t.across⟩

/-- The variables of a work item in a unit. -/
def declared (unit : UnitId) : Variables :=
  ⟨t, variablesFrom unit .float4 0 (4 * t.down * t.across), t.row unit 0, t.row unit 1,
    ⟨.float4, some ⟨unit, t.rowStart 2⟩⟩⟩

/-- The tile has texels, and its sizes are machine words. -/
structure Sized : Prop where
  across_pos : 0 < t.across
  down_pos : 0 < t.down
  across_lt : t.across < 2 ^ 61
  down_lt : t.down < 2 ^ 61

variable {t}

theorem accRegister_lt {i j : Nat} (hi : i < 4 * t.down) (hj : j < t.across) :
    t.accRegister i j < 4 * t.down * t.across := by
  unfold accRegister
  calc i * t.across + j < i * t.across + t.across := by omega
    _ = (i + 1) * t.across := by rw [Nat.succ_mul]
    _ ≤ 4 * t.down * t.across := Nat.mul_le_mul_right _ hi

theorem accRegister_inj {i j i' j' : Nat} (hj : j < t.across) (hj' : j' < t.across)
    (h : t.accRegister i j = t.accRegister i' j') : i = i' ∧ j = j' := by
  unfold accRegister at h
  have hpos : 0 < t.across := by omega
  have hdiv : ∀ {a b : Nat}, b < t.across → (a * t.across + b) / t.across = a := by
    intro a b hb
    rw [Nat.add_comm, Nat.add_mul_div_right _ _ hpos, Nat.div_eq_of_lt hb, Nat.zero_add]
  have hi : i = i' := by
    rw [← hdiv (a := i) hj, h, hdiv hj']
  subst hi
  exact ⟨rfl, by omega⟩

end Tile

theorem nth_variablesFrom {unit : UnitId} {ty : ValueType} {start n i : Nat} (hi : i < n) :
    nth (variablesFrom unit ty start n) i = ⟨ty, some ⟨unit, start + i⟩⟩ := by
  simp [nth, variablesFrom, hi]

variable {t : Tile} {target : Target} {unit : UnitId} {flow : List Block}

theorem acc_declared {i j : Nat} (hi : i < 4 * t.down) (hj : j < t.across) :
    (t.declared unit).acc i j = ⟨.float4, some ⟨unit, t.accRegister i j⟩⟩ := by
  have hnth : (t.declared unit).acc i j = ⟨.float4, some ⟨unit, 0 + t.accRegister i j⟩⟩ :=
    nth_variablesFrom (Tile.accRegister_lt hi hj)
  rw [hnth, Nat.zero_add]

theorem declareRow_ok {s : Assembler} {h : Nat} (hphase : s.phase = .building)
    (hreport : s.report = none) (hnext : s.draft.next = t.rowStart h) : declareRow t s =
      .ok (t.row s.unit h, { s with draft := s.draft.taken (t.down + t.across) }) := by
  have hright : declareMany .float4 t.across { s with draft := s.draft.taken t.down } =
      .ok (variablesFrom s.unit .float4 (t.rowStart h + t.down) t.across,
        { s with draft := (s.draft.taken t.down).taken t.across }) := by
    have hphase' : ({ s with draft := s.draft.taken t.down } : Assembler).phase = .building := hphase
    rw [← hnext]
    exact declareMany_ok rfl hphase' hreport t.across
  have hleft : declareMany .float4 t.down s = .ok (variablesFrom s.unit .float4 (t.rowStart h) t.down,
      { s with draft := s.draft.taken t.down }) := by
    rw [← hnext]
    exact declareMany_ok rfl hphase hreport t.down
  rw [declareRow, bind_of_ok hleft, bind_of_ok hright, Draft.taken_taken]
  rfl

theorem declareVariables_ok {s : Assembler} (hphase : s.phase = .building) (hreport : s.report = none)
    (hnext : s.draft.next = 0) : declareVariables t s =
      .ok (t.declared s.unit, { s with draft := s.draft.taken (t.rowStart 2 + 1) }) := by
  have hacc : declareMany .float4 (4 * t.down * t.across) s =
      .ok (variablesFrom s.unit .float4 0 (4 * t.down * t.across),
        { s with draft := s.draft.taken (t.rowStart 0) }) := by
    rw [declareMany_ok rfl hphase hreport, hnext, Tile.rowStart, Nat.zero_mul, Nat.add_zero]
  have hrow : ∀ h, declareRow t { s with draft := s.draft.taken (t.rowStart h) } =
      .ok (t.row s.unit h, { s with draft := s.draft.taken (t.rowStart (h + 1)) }) := by
    intro h
    have hstart : (s.draft.taken (t.rowStart h)).next = t.rowStart h := by
      rw [Draft.taken_next, hnext, Nat.zero_add]
    have hsum : t.rowStart h + (t.down + t.across) = t.rowStart (h + 1) := by
      unfold Tile.rowStart
      rw [Nat.add_mul h 1, Nat.one_mul, Nat.add_assoc]
    have hdeclare : declareRow t { s with draft := s.draft.taken (t.rowStart h) } =
        .ok (t.row s.unit h,
          { s with draft := (s.draft.taken (t.rowStart h)).taken (t.down + t.across) }) :=
      declareRow_ok hphase hreport hstart
    rw [hdeclare, Draft.taken_taken, hsum]
  have hpos : Build.declare .float4 { s with draft := s.draft.taken (t.rowStart 2) } =
      .ok (⟨.float4, some ⟨s.unit, t.rowStart 2⟩⟩,
        { s with draft := s.draft.taken (t.rowStart 2 + 1) }) := by
    have hdeclare : Build.declare .float4 { s with draft := s.draft.taken (t.rowStart 2) } =
        .ok (⟨.float4, some ⟨s.unit, (s.draft.taken (t.rowStart 2)).next⟩⟩,
          { s with draft := (s.draft.taken (t.rowStart 2)).taken 1 }) :=
      Build.declare_ok rfl hphase hreport
    rw [hdeclare, Draft.taken_next, hnext, Nat.zero_add, Draft.taken_taken]
  rw [declareVariables, bind_of_ok hacc, bind_of_ok (hrow 0), bind_of_ok (hrow 1), bind_of_ok hpos]
  rfl

/-! ### Lines -/

namespace Tile

variable (t : Tile)

/-- The line that adds the product of component `k` of a texel of the left matrix and a texel of the
right matrix to an accumulator. -/
def madLine (h i j : Nat) (k : Lane) : Instruction :=
  ⟨.mad, ⟨.temp (t.accRegister (4 * i + k.val) j), .full⟩,
    [⟨.temp (t.leftRegister h i), .broadcast k 4, .plain⟩,
      ⟨.temp (t.rightRegister h j), .identity 4, .plain⟩,
      ⟨.temp (t.accRegister (4 * i + k.val) j), .identity 4, .plain⟩]⟩

/-- The products of a row of both matrices. -/
def madLines (h : Nat) : List Line :=
  (List.range t.down).flatMap fun i => (List.range t.across).flatMap fun j =>
    (List.finRange 4).map fun k => .instruction (t.madLine h i j k)

/-- The line that stores an accumulator behind the index. -/
def storeLine (i j : Nat) : Instruction :=
  ⟨.mov, ⟨.globalFrom (.temp t.indexRegister) (.identity 1) (Int64.ofNat j), .full⟩,
    [⟨.temp (t.accRegister i j), .identity 4, .plain⟩]⟩

/-- The line that adds the step to the index. -/
def advanceLine : Instruction :=
  ⟨.iadd, ⟨.temp t.indexRegister, .ofSwizzle (.identity 1)⟩,
    [⟨.temp t.indexRegister, .identity 1, .plain⟩, ⟨.temp (t.indexRegister + 1), .identity 1, .plain⟩]⟩

/-- A row is stored texel by texel, and then the index is advanced. -/
def rowLines (i : Nat) : List Line :=
  ((List.range t.across).map fun j => .instruction (t.storeLine i j)) ++ [.instruction t.advanceLine]

end Tile

theorem width_costs : Costs target unit width .float1 0 [] :=
  Costs.parameter (Text.spells_iff.mpr ⟨⟨[.x]⟩, rfl, rfl⟩)

theorem depth_costs : Costs target unit depth .float1 0 [] :=
  Costs.parameter (Text.spells_iff.mpr ⟨⟨[.y]⟩, rfl, rfl⟩)

/-- An expression moved by a distance has an addition for it unless the distance is zero. -/
theorem moved_costs {e : Expr} {k n : Nat} {ms : List Mnemonic} (he : Costs target unit e .float1 k ms)
    (hn : n < 2 ^ 63) : Costs target unit (moved e n) .float1 (k + min n 1)
      (ms ++ List.replicate (min n 1) .add) := by
  unfold moved
  by_cases h0 : n = 0
  · rw [if_pos h0, h0]
    simpa using he
  · have hone : min n 1 = 1 := by omega
    have hover : BinaryOp.add.overload? .float1 .float1 = some _ := rfl
    rw [if_neg h0, hone]
    exact Costs.withInt he rfl (by omega) hover

theorem emit_spread (r : Nat) (k : Lane) (d : Draft) :
    (Expr.spread ⟨.float4, some ⟨unit, r⟩⟩ k).emit target d =
      .ok (⟨.temp r, .broadcast k 4, 1⟩, d) := by
  have hselect : ∀ k : Lane, (Operand.ofType (.temp r) .float4).select (.broadcast k 4) =
      .ok ⟨.temp r, .broadcast k 4, 1⟩ := by
    intro k
    fin_cases k <;> rfl
  exact Emit.lift_ok (hselect k) d

theorem multiplyAdd_adds {h i j : Nat} {k : Lane} (hi : i < t.down) (hj : j < t.across) :
    Adds target unit flow [multiplyAdd (t.declared unit) (t.row unit h) i j k] 0
      (· = [.instruction (t.madLine h i j k)]) := by
  have hrow : 4 * i + k.val < 4 * t.down := by omega
  have hleft : nth (t.row unit h).left i = ⟨.float4, some ⟨unit, t.leftRegister h i⟩⟩ :=
    nth_variablesFrom hi
  have hright : nth (t.row unit h).right j = ⟨.float4, some ⟨unit, t.rightRegister h j⟩⟩ :=
    nth_variablesFrom hj
  unfold multiplyAdd
  simp only [acc_declared hrow hj, hleft, hright]
  have hx : Costs target unit (.spread ⟨.float4, some ⟨unit, t.leftRegister h i⟩⟩ k) .float4 0 [] :=
    Costs.spread _ k
  have hv : ∀ r, Costs target unit (.var ⟨.float4, some ⟨unit, r⟩⟩) .float4 0 [] :=
    fun r => Costs.var rfl rfl
  have hover : TernaryOp.mad.overload? .float4 .float4 .float4 = some _ := rfl
  have hf := (Costs.overload?_ternary hx (hv (t.rightRegister h j))
    (hv (t.accRegister (4 * i + k.val) j))).trans hover
  have hargs : ∀ d, emitAll target [.spread ⟨.float4, some ⟨unit, t.leftRegister h i⟩⟩ k,
      .var ⟨.float4, some ⟨unit, t.rightRegister h j⟩⟩,
      .var ⟨.float4, some ⟨unit, t.accRegister (4 * i + k.val) j⟩⟩] d =
        .ok ([⟨.temp (t.leftRegister h i), .broadcast k 4, 1⟩,
          Operand.ofType (.temp (t.rightRegister h j)) .float4,
          Operand.ofType (.temp (t.accRegister (4 * i + k.val) j)) .float4], d) := by
    intro d
    rw [emitAll, Emit.bind_of_ok (emit_spread _ k d)]
    rfl
  exact Adds.set_write_line hf rfl (.cons hx (.cons (hv _) (.cons (hv _) .nil))) hargs fun n => rfl

theorem accumulate_adds (h : Nat) :
    Adds target unit flow (accumulate (t.declared unit) (t.row unit h)) 0 (· = t.madLines h) := by
  refine Adds.each_lines fun i hi => Adds.each_lines fun j hj => ?_
  rw [List.mem_range] at hi hj
  rw [List.map_eq_flatMap, List.map_eq_flatMap]
  exact Adds.each_lines fun k _ => multiplyAdd_adds hi hj

/-! ### Around the loop -/

/-- All numbers of a range but the first have one more. -/
theorem sum_range_min (n c : Nat) :
    ((List.range n).map fun i => min i 1 + c).sum = n * c + (n - 1) := by
  cases n with
  | zero => simp
  | succ n =>
    have hrest : ((List.range n).map fun i => min (i + 1) 1 + c) = (List.range n).map fun _ => 1 + c :=
      List.map_congr_left fun i _ => by omega
    rw [List.range_succ_eq_map, List.map_cons, List.map_map, List.sum_cons]
    change min 0 1 + c + ((List.range n).map fun i => min (i + 1) 1 + c).sum = _
    rw [hrest, List.map_const', List.sum_replicate, List.length_range, smul_eq_mul, Nat.mul_add,
      Nat.succ_mul]
    omega

/-- The mnemonics of loading a texel, in whose coordinates the shared index has some. -/
def loadMnemonics (input : Input) (shared : List Mnemonic) (i : Nat) : List Mnemonic :=
  List.replicate (min i 1) .add ++ shared ++ [.mov, .mov, .sample input.slot, .mov]

theorem texel_adds {input : Input} {z : Expr} {k : Nat} {shared : List Mnemonic} (r r' : Nat)
    (lane : Lane) {i : Nat} (hi : i < 2 ^ 63) (hinput : input.error = none)
    (htype : input.type = .float4) (hz : Costs target unit z .float1 k shared) :
    Adds target unit flow [.set ⟨.float4, some ⟨unit, r⟩⟩
      (.texel input (moved (.component ⟨.float4, some ⟨unit, r'⟩⟩ lane) i) z)] (min i 1 + (k + 2))
        (Line.Computes (loadMnemonics input shared i)) := by
  have hcost := Costs.texel (moved_costs (Costs.component r' lane) hi) hz hinput
  rw [htype, List.nil_append, Nat.zero_add, Nat.add_assoc] at hcost
  have hsplit : loadMnemonics input shared i = (List.replicate (min i 1) .add ++ shared ++
      [Mnemonic.mov, .mov, .sample input.slot]) ++ [Mnemonic.mov] := by
    simp [loadMnemonics]
  rw [hsplit]
  exact Adds.set_move hcost rfl

/-- Loading texels: as many moves and samples as texels, and additions for all but the first. -/
theorem texels_adds {input : Input} {z : Expr} {k : Nat} {shared : List Mnemonic} {vs : List Variable}
    (start r' : Nat) (lane : Lane) {n : Nat} (hvs : vs = variablesFrom unit .float4 start n)
    (hn : n < 2 ^ 61) (hinput : input.error = none) (htype : input.type = .float4)
    (hz : Costs target unit z .float1 k shared) :
    Adds target unit flow ((List.range n).map fun i => .set (nth vs i)
      (.texel input (moved (.component ⟨.float4, some ⟨unit, r'⟩⟩ lane) i) z)) (n * (k + 2) + (n - 1))
        (Line.Computes ((List.range n).flatMap (loadMnemonics input shared))) := by
  rw [← sum_range_min, List.map_eq_flatMap]
  refine Adds.each_computes fun i hi => ?_
  rw [List.mem_range] at hi
  rw [hvs, nth_variablesFrom hi]
  exact texel_adds _ r' lane (by omega) hinput htype hz

/-- The mnemonics of loading a row of both matrices. -/
def Tile.loadMnemonics (t : Tile) (shared : List Mnemonic) : List Mnemonic :=
  (List.range t.down).flatMap (MatMul.loadMnemonics leftInput shared) ++
    (List.range t.across).flatMap (MatMul.loadMnemonics rightInput shared)

theorem load_adds {h k : Nat} {z : Expr} {shared : List Mnemonic} (ht : t.Sized)
    (hz : Costs target unit z .float1 k shared) :
    Adds target unit flow (load (t.declared unit) (t.row unit h) z)
      (t.down * (k + 2) + (t.down - 1) + (t.across * (k + 2) + (t.across - 1)))
      (Line.Computes (t.loadMnemonics shared)) :=
  Adds.append_computes (texels_adds _ _ _ rfl ht.down_lt rfl rfl hz)
    (texels_adds _ _ _ rfl ht.across_lt rfl rfl hz)

/-- The origin of the tile is written to the position in one line behind that of the thread. -/
theorem origin_adds (ht : t.Sized) : Adds target unit flow
    [.assign (some (.view (t.declared unit).pos "xy"))
      (.binary .mul (.position .float2) (.ofInts .float2 [t.across, t.down]))] 1
    (Line.Computes [if target = .compute then .itof else .floor, .mul]) := by
  have hacross := ht.across_lt
  have hdown := ht.down_lt
  have hx : Costs target unit (.position .float2) .float2 1
      [if target = .compute then .itof else .floor] := Costs.position rfl rfl
  have hy : Costs target unit (.ofInts .float2 [t.across, t.down]) .float2 0 [] := by
    refine Costs.ofInts rfl rfl rfl fun n hn => ?_
    simp only [List.mem_cons, List.not_mem_nil, or_false] at hn
    omega
  have hover : BinaryOp.mul.overload? .float2 .float2 = some _ := rfl
  have hf := (Costs.overload?_binary hx hy).trans hover
  have hlanes : (t.declared unit).pos.viewLanes "xy" = .ok ⟨[Lane.x, Lane.y]⟩ := rfl
  obtain ⟨hview, htype⟩ := Accepted.view rfl rfl hlanes rfl
  refine Adds.write_computes (r := t.rowStart 2) hf (.cons hx (.cons hy .nil)) hview ?_ htype ?_
  · simp only [LValue.operand?, hlanes]
    rfl
  · simp only [LValue.direct?, hlanes]
    rw [if_pos (by decide)]
    have hviewType : (t.declared unit).pos.viewType "xy" = .float2 := htype
    simp [Expr.direct?, hf, hviewType]

theorem sharedIndex_adds : Adds target unit flow
    [.assign (some (.view (t.declared unit).pos "zw")) (.ofInts .float2 [-2, 0])] 0
    (Line.Computes [.mov]) := by
  have hx : Costs target unit (.ofInts .float2 [-2, 0]) .float2 0 [] :=
    Costs.ofInts rfl rfl rfl (by decide)
  have hlanes : (t.declared unit).pos.viewLanes "zw" = .ok ⟨[Lane.z, Lane.w]⟩ := rfl
  obtain ⟨hview, htype⟩ := Accepted.view rfl rfl hlanes rfl
  refine Adds.move hx hview (by simp only [LValue.operand?, hlanes]; rfl) ?_ ?_
  · have hdst : (LValue.view (t.declared unit).pos "zw").type = .float2 := htype
    rw [hdst]
    rfl
  · simp only [LValue.direct?, hlanes]
    rfl

theorem clear_adds (n : Nat) : Adds target unit flow
    ((variablesFrom unit .float4 0 n).map fun r => .set r (.ofInt .float4 0)) 0
    (Line.Computes ((List.range n).flatMap fun _ => [.mov])) := by
  have hclear : ∀ i ∈ List.range n, Adds target unit flow
      [.set ⟨.float4, some ⟨unit, 0 + i⟩⟩ (.ofInt .float4 0)] 0 (Line.Computes [.mov]) :=
    fun i _ => Adds.set_move (Costs.ofInt rfl rfl (by decide)) rfl
  have hall := Adds.each_computes hclear
  rw [List.map_const', List.sum_replicate, smul_zero] at hall
  rw [variablesFrom, List.map_map, List.map_eq_flatMap]
  exact hall

/-- The mnemonics before the loop. -/
def Tile.setUpMnemonics (t : Tile) (target : Target) : List Mnemonic :=
  [if target = .compute then .itof else .floor, .mul] ++ [.mov] ++
    (List.range (4 * t.down * t.across)).flatMap fun _ => [.mov]

theorem setUp_adds (ht : t.Sized) : Adds target unit flow (setUp (t.declared unit)) 1
    (Line.Computes (t.setUpMnemonics target)) :=
  ((origin_adds ht).append_computes sharedIndex_adds).append_computes (clear_adds _)

/-! ### The loop -/

/-- The statements of the loop. -/
def loopBody (v : Variables) : List Statement :=
  let z := Expr.component v.pos .z
  [.set v.pos (.binary .add (.var v.pos) (.ofInts .float4 [0, 0, 2, 0]))] ++
  [.breakIf (.binary .ge z depth)] ++
  (load v v.first z ++ load v v.second (moved z 1)) ++
  accumulate v v.first ++
  [.breakIf (.withInt .lt width 0)] ++
  accumulate v v.second

theorem loop_eq (v : Variables) : loop v = .whileLoop :: loopBody v ++ [.endLoop] := by
  simp [loop, loopBody]

/-- What a round of the loop consists of. -/
def Tile.Round (t : Tile) (ls : List Line) : Prop :=
  ∃ (start loads test : List Line) (limit guard : SourceOperand),
    ls = start ++ [.test .breakTrue limit] ++ (loads ++ t.madLines 0 ++ test) ++
      [.test .breakTrue guard] ++ t.madLines 1 ∧
    Line.Computes [.add, .ge] start ∧
    Line.Computes (t.loadMnemonics [] ++ t.loadMnemonics [.add]) loads ∧ Line.Computes [.lt] test

theorem advance_adds : Adds target unit flow [.set (t.declared unit).pos
      (.binary .add (.var (t.declared unit).pos) (.ofInts .float4 [0, 0, 2, 0]))] 0
    (Line.Computes [.add]) := by
  have hx : Costs target unit (.var (t.declared unit).pos) .float4 0 [] := Costs.var rfl rfl
  have hy : Costs target unit (.ofInts .float4 [0, 0, 2, 0]) .float4 0 [] :=
    Costs.ofInts rfl rfl rfl (by decide)
  have hover : BinaryOp.add.overload? .float4 .float4 = some _ := rfl
  exact Adds.set_write_computes ((Costs.overload?_binary hx hy).trans hover) rfl (.cons hx (.cons hy .nil))

theorem limit_costs (r : Nat) : Costs target unit
    (.binary .ge (.component ⟨.float4, some ⟨unit, r⟩⟩ .z) depth) .bool1 1 [.ge] := by
  have hover : BinaryOp.ge.overload? .float1 .float1 = some _ := rfl
  exact Costs.binary (Costs.component r .z) depth_costs hover

theorem guard_costs : Costs target unit (.withInt .lt width 0) .bool1 1 [.lt] := by
  have hover : BinaryOp.lt.overload? .float1 .float1 = some _ := rfl
  exact Costs.withInt width_costs rfl (by decide) hover

theorem loads_adds (ht : t.Sized) : Adds target unit flow
    (load (t.declared unit) (t.row unit 0) (.component (t.declared unit).pos .z) ++
      load (t.declared unit) (t.row unit 1) (moved (.component (t.declared unit).pos .z) 1))
    (7 * (t.down + t.across) - 4)
    (Line.Computes (t.loadMnemonics [] ++ t.loadMnemonics [.add])) := by
  have hacross := ht.across_pos
  have hdown := ht.down_pos
  have hz : Costs target unit (.component (t.declared unit).pos .z) .float1 0 [] := Costs.component _ _
  have hz' : Costs target unit (moved (.component (t.declared unit).pos .z) 1) .float1 1 [.add] :=
    moved_costs hz (by decide)
  have hcount : 7 * (t.down + t.across) - 4 =
      t.down * (0 + 2) + (t.down - 1) + (t.across * (0 + 2) + (t.across - 1)) +
        (t.down * (1 + 2) + (t.down - 1) + (t.across * (1 + 2) + (t.across - 1))) := by
    omega
  rw [hcount]
  exact (load_adds ht hz).append_computes (load_adds ht hz')

theorem loopBody_adds (ht : t.Sized) : Adds target unit (.loop :: flow) (loopBody (t.declared unit))
    (7 * (t.down + t.across) - 2) t.Round := by
  have hpos := ht.down_pos
  have hcount : 7 * (t.down + t.across) - 2 =
      0 + 1 + (7 * (t.down + t.across) - 4) + 0 + 1 + 0 := by
    omega
  have hlimit : Adds target unit (.loop :: flow) _ 1 _ := Adds.breakIf (limit_costs (t.rowStart 2)) rfl
  have hguard : Adds target unit (.loop :: flow) _ 1 _ := Adds.breakIf guard_costs rfl
  rw [hcount]
  refine (((((advance_adds.followed hlimit).followed (loads_adds ht)).followed
    (accumulate_adds 0)).followed hguard).followed (accumulate_adds 1)).mono ?_
  rintro ls ⟨-, -, rfl, ⟨-, -, rfl, ⟨-, -, rfl, ⟨-, loads, rfl, ⟨step, -, rfl, hstep,
    ⟨limit, o, rfl, hlimit⟩⟩, hloads⟩, rfl⟩, ⟨test, o', rfl, htest⟩⟩, rfl⟩
  exact ⟨step ++ limit, loads, test, o, o', by simp, hstep.append hlimit, hloads, htest⟩

/-! ### After the loop -/

theorem storeElement_adds {i j : Nat} (hi : i < 4 * t.down) (hj : j < t.across) :
    Adds target unit flow [.assign (some (.element .float4
        ((Address.ofExpr (.var ⟨.uint1, some ⟨unit, t.indexRegister⟩⟩)).add (Int64.ofNat j))))
      (.var ((t.declared unit).acc i j))] 0 (· = [.instruction (t.storeLine i j)]) := by
  have hoffset : (Address.ofExpr (.var ⟨.uint1, some ⟨unit, t.indexRegister⟩⟩)).add (Int64.ofNat j) =
      ⟨some (.var ⟨.uint1, some ⟨unit, t.indexRegister⟩⟩), Int64.ofNat j⟩ :=
    congrArg _ (Int64.zero_add _)
  rw [acc_declared hi hj, hoffset]
  exact Adds.store t.indexRegister (Int64.ofNat j) (t.accRegister i j)

theorem advanceIndex_adds : Adds target unit flow [.set ⟨.uint1, some ⟨unit, t.indexRegister⟩⟩
      (.binary .add (.var ⟨.uint1, some ⟨unit, t.indexRegister⟩⟩)
        (.var ⟨.uint1, some ⟨unit, t.indexRegister + 1⟩⟩))] 0 (· = [.instruction t.advanceLine]) := by
  have hv : ∀ r, Costs target unit (.var ⟨.uint1, some ⟨unit, r⟩⟩) .uint1 0 [] :=
    fun r => Costs.var rfl rfl
  have hover : BinaryOp.add.overload? .uint1 .uint1 = some _ := rfl
  have hf := (Costs.overload?_binary (hv t.indexRegister) (hv (t.indexRegister + 1))).trans hover
  have hargs : ∀ d, emitAll target [.var ⟨.uint1, some ⟨unit, t.indexRegister⟩⟩,
      .var ⟨.uint1, some ⟨unit, t.indexRegister + 1⟩⟩] d =
        .ok ([Operand.ofType (.temp t.indexRegister) .uint1,
          Operand.ofType (.temp (t.indexRegister + 1)) .uint1], d) := fun _ => rfl
  exact Adds.set_write_line hf rfl (.cons (hv _) (.cons (hv _) .nil)) hargs fun n => rfl

theorem storeRow_adds {i : Nat} (hi : i < 4 * t.down) :
    Adds target unit flow (storeRow (t.declared unit) ⟨.uint1, some ⟨unit, t.indexRegister⟩⟩
      ⟨.uint1, some ⟨unit, t.indexRegister + 1⟩⟩ i) 0 (· = t.rowLines i) := by
  have hstores : Adds target unit flow _ 0 _ := Adds.each_lines fun j hj =>
    storeElement_adds hi (List.mem_range.mp hj)
  unfold storeRow Tile.rowLines
  rw [List.map_eq_flatMap, List.map_eq_flatMap]
  exact hstores.append advanceIndex_adds fun _ _ heq heq' => by rw [heq, heq']

theorem index_adds : Adds target unit flow [.set ⟨.uint1, some ⟨unit, t.indexRegister⟩⟩
      (.convert .cast .uint1 (.ternary .mad (.withInt .mul (.component (t.declared unit).pos .y) 4)
        width (.component (t.declared unit).pos .x)))] 2 (Line.Computes [.mul, .mad, .ftou]) := by
  have hmul : BinaryOp.mul.overload? .float1 .float1 = some _ := rfl
  have hmad : TernaryOp.mad.overload? .float1 .float1 .float1 = some _ := rfl
  have hcast : Conversion.cast.overload? .uint1 .float1 = some _ := rfl
  have hx : Costs target unit (.component (t.declared unit).pos .x) .float1 0 [] := Costs.component _ _
  have hy : Costs target unit (.withInt .mul (.component (t.declared unit).pos .y) 4) .float1 1
      [.mul] := Costs.withInt (Costs.component _ _) rfl (by decide) hmul
  have hf := (Costs.overload?_ternary hy width_costs hx).trans hmad
  have hsum : Costs target unit (.ternary .mad (.withInt .mul (.component (t.declared unit).pos .y) 4)
      width (.component (t.declared unit).pos .x)) .float1 2 [.mul, .mad] :=
    Costs.operation hf (.cons hy (.cons width_costs (.cons hx .nil)))
  have hconvert := (Costs.overload?_convert hsum).trans hcast
  exact Adds.set_write_computes hconvert rfl (.cons hsum .nil)

theorem step_adds : Adds target unit flow [.set ⟨.uint1, some ⟨unit, t.indexRegister + 1⟩⟩
    (.convert .cast .uint1 width)] 0 (Line.Computes [.ftou]) := by
  have hcast : Conversion.cast.overload? .uint1 .float1 = some _ := rfl
  have hx : Costs target unit width .float1 0 [] := width_costs
  exact Adds.set_write_computes ((Costs.overload?_convert hx).trans hcast) rfl (.cons hx .nil)

/-- What stands after the loop. -/
def Tile.Saved (t : Tile) (ls : List Line) : Prop :=
  ∃ head, ls = head ++ (List.range (4 * t.down)).flatMap t.rowLines ∧
    Line.Computes [.mul, .mad, .ftou, .ftou] head

theorem store_adds : Adds target unit flow (store (t.declared unit)
    ⟨.uint1, some ⟨unit, t.indexRegister⟩⟩ ⟨.uint1, some ⟨unit, t.indexRegister + 1⟩⟩) 2 t.Saved := by
  have hhead : Adds target unit flow _ (2 + 0) _ :=
    (index_adds (t := t)).append_computes (step_adds (t := t))
  have hrows : Adds target unit flow _ 0 _ := Adds.each_lines fun i hi =>
    storeRow_adds (t := t) (List.mem_range.mp hi)
  exact hhead.append hrows fun head _ hcomputes heq => ⟨head, by rw [heq], hcomputes⟩

end ShaderIL.MatMul
