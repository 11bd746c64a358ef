import ShaderIL.Proofs.Kernel.MatMulCode

/-!
# Matrix multiplication for every tile

`Parts.Multiplies` is what the code of the kernel is to be, and `body_multiplies_every_tile` says that it
is, whatever the size of the tile. A product is known from the registers it reads (`Tile.madLine_inj`),
so none is added twice; the stores are cut at a row and a texel to see what stands before one of them
(`Tile.Saved.split`).
-/

namespace ShaderIL.MatMul

open Assembler Expr Build

variable {t : Tile} {target : Target} {unit : UnitId}

/-! ### The products of the loop -/

theorem not_mem_of_computes {ms : List Mnemonic} {ls : List Line} {i : Instruction}
    (h : Line.Computes ms ls) (hi : i.mnemonic ∉ ms) : Line.instruction i ∉ ls := by
  intro hmem
  obtain ⟨i', heq, hmnemonic, -⟩ := h.mem hmem
  cases heq
  exact hi hmnemonic

namespace Tile

theorem madLine_inj {h h' i i' j j' : Nat} {k k' : Lane}
    (heq : t.madLine h i j k = t.madLine h' i' j' k') : t.leftRegister h i = t.leftRegister h' i' ∧
      t.rightRegister h j = t.rightRegister h' j' ∧ k = k' := by
  simp only [madLine, Instruction.mk.injEq, List.cons.injEq, SourceOperand.mk.injEq,
    Place.temp.injEq] at heq
  obtain ⟨-, -, ⟨hleft, hlanes, -⟩, ⟨hright, -⟩, -⟩ := heq
  refine ⟨hleft, hright, ?_⟩
  have hlist : List.replicate 4 k = List.replicate 4 k' := congrArg Swizzle.lanes hlanes
  exact List.replicate_right_inj (by decide) |>.mp hlist

theorem mem_madLines {h : Nat} {l : Line} : l ∈ t.madLines h ↔
    ∃ i < t.down, ∃ j < t.across, ∃ k : Lane, l = .instruction (t.madLine h i j k) := by
  simp only [madLines, List.mem_flatMap, List.mem_map, List.mem_range, List.mem_finRange, true_and]
  constructor
  · rintro ⟨i, hi, j, hj, k, rfl⟩
    exact ⟨i, hi, j, hj, k, rfl⟩
  · rintro ⟨i, hi, j, hj, k, rfl⟩
    exact ⟨i, hi, j, hj, k, rfl⟩

theorem nodup_madLines (h : Nat) : (t.madLines h).Nodup := by
  -- Within a row of both matrices the registers read give the numbers back without any bound on them.
  have hline : ∀ {i i' j j' : Nat} {k k' : Lane},
      Line.instruction (t.madLine h i j k) = .instruction (t.madLine h i' j' k') →
        i = i' ∧ j = j' ∧ k = k' := by
    intro i i' j j' k k' heq
    obtain ⟨hleft, hright, hk⟩ := madLine_inj (Line.instruction.inj heq)
    unfold leftRegister at hleft
    unfold rightRegister at hright
    exact ⟨by omega, by omega, hk⟩
  refine List.nodup_flatMap.mpr ⟨fun i _ => List.nodup_flatMap.mpr ⟨fun j _ => ?_, ?_⟩, ?_⟩
  · exact (List.nodup_finRange 4).map fun k k' heq => (hline heq).2.2
  · refine List.nodup_range.imp fun {j j'} hne l hl hl' => hne ?_
    obtain ⟨k, -, rfl⟩ := List.mem_map.mp hl
    obtain ⟨k', -, heq⟩ := List.mem_map.mp hl'
    exact (hline heq.symm).2.1
  · refine List.nodup_range.imp fun {i i'} hne l hl hl' => hne ?_
    obtain ⟨j, -, hl⟩ := List.mem_flatMap.mp hl
    obtain ⟨j', -, hl'⟩ := List.mem_flatMap.mp hl'
    obtain ⟨k, -, rfl⟩ := List.mem_map.mp hl
    obtain ⟨k', -, heq⟩ := List.mem_map.mp hl'
    exact (hline heq.symm).1

theorem leftRegister_inj {h h' i i' : Nat} (hh : h < 2) (hh' : h' < 2) (hi : i < t.down)
    (hi' : i' < t.down) (heq : t.leftRegister h i = t.leftRegister h' i') : h = h' ∧ i = i' := by
  have hcases : ∀ n < 2, n * (t.down + t.across) = if n = 0 then 0 else t.down + t.across := by
    intro n hn
    have hn : n = 0 ∨ n = 1 := by omega
    rcases hn with rfl | rfl <;> simp
  unfold leftRegister rowStart at heq
  rw [hcases h hh, hcases h' hh'] at heq
  split_ifs at heq with h0 h1 <;> omega

theorem count_madLines {h h' i j : Nat} {k : Lane} (hh : h < 2) (hh' : h' < 2) (hi : i < t.down)
    (hj : j < t.across) :
    (t.madLines h').count (.instruction (t.madLine h i j k)) = if h' = h then 1 else 0 := by
  split_ifs with heq
  · rw [heq]
    exact List.count_eq_one_of_mem (nodup_madLines h) (mem_madLines.mpr ⟨i, hi, j, hj, k, rfl⟩)
  · refine List.count_eq_zero_of_not_mem fun hmem => heq ?_
    obtain ⟨i', hi', j', -, k', hline⟩ := mem_madLines.mp hmem
    obtain ⟨hleft, -⟩ := madLine_inj (Line.instruction.inj hline)
    exact (leftRegister_inj hh hh' hi hi' hleft).1.symm

theorem mad_not_mem_loadMnemonics {shared : List Mnemonic} (h : Mnemonic.mad ∉ shared) :
    Mnemonic.mad ∉ t.loadMnemonics shared := by
  simp [loadMnemonics, MatMul.loadMnemonics, h, List.mem_replicate]

end Tile

/-! ### The rows after the loop -/

/-- The line reads the register and writes no register. -/
def Saves (r : Nat) (l : Line) : Prop :=
  ∃ i : Instruction, l = .instruction i ∧ (∀ q, i.dst.place ≠ .temp q) ∧
    ∃ src ∈ i.srcs, src.place = .temp r

theorem not_saves_of_computes {ms : List Mnemonic} {ls : List Line} {l : Line} {r : Nat}
    (h : Line.Computes ms ls) (hl : l ∈ ls) : ¬ Saves r l := by
  rintro ⟨i, rfl, hdst, -⟩
  obtain ⟨i', heq, -, q, hq⟩ := h.mem hl
  cases heq
  exact hdst q hq

theorem not_saves_advanceLine (r : Nat) : ¬ Saves r (.instruction t.advanceLine) := by
  rintro ⟨i, heq, hdst, -⟩
  cases heq
  exact hdst _ rfl

theorem not_saves_storeLine {i j i' j' : Nat} (hj : j < t.across) (hj' : j' < t.across)
    (hne : i' = i → j' ≠ j) : ¬ Saves (t.accRegister i j) (.instruction (t.storeLine i' j')) := by
  rintro ⟨l, heq, -, src, hsrc, hplace⟩
  cases heq
  rw [Tile.storeLine, List.mem_singleton] at hsrc
  rw [hsrc, Place.temp.injEq] at hplace
  obtain ⟨hi, hj⟩ := Tile.accRegister_inj hj' hj hplace
  exact hne hi hj

theorem not_saves_rowLines {i j i' : Nat} (hj : j < t.across) (hne : i' ≠ i) {l : Line}
    (hl : l ∈ t.rowLines i') : ¬ Saves (t.accRegister i j) l := by
  rcases List.mem_append.mp hl with hl | hl
  · obtain ⟨j', hj', rfl⟩ := List.mem_map.mp hl
    exact not_saves_storeLine hj (List.mem_range.mp hj') fun h => absurd h hne
  · rw [List.mem_singleton.mp hl]
    exact not_saves_advanceLine _

theorem count_advanceLine_stores (i : Nat) (js : List Nat) :
    (js.map fun j => Line.instruction (t.storeLine i j)).count (.instruction t.advanceLine) = 0 := by
  refine List.count_eq_zero_of_not_mem fun hmem => ?_
  obtain ⟨j, -, heq⟩ := List.mem_map.mp hmem
  cases congrArg Instruction.mnemonic (Line.instruction.inj heq)

theorem count_advanceLine_rows (n : Nat) :
    ((List.range n).flatMap t.rowLines).count (.instruction t.advanceLine) = n := by
  induction n with
  | zero => rfl
  | succ n ih =>
    rw [List.range_succ, List.flatMap_append, List.count_append, ih, List.flatMap_singleton,
      Tile.rowLines, List.count_append, count_advanceLine_stores, List.count_singleton_self]

theorem range_split {i n : Nat} (hi : i < n) :
    ∃ bs, List.range n = List.range i ++ i :: bs ∧ ∀ b ∈ bs, i < b := by
  obtain ⟨m, rfl⟩ : ∃ m, n = i + 1 + m := ⟨n - (i + 1), by omega⟩
  refine ⟨(List.range m).map (i + 1 + ·), ?_, fun b hb => ?_⟩
  · rw [List.range_add, List.range_succ, List.append_assoc]
    rfl
  · obtain ⟨c, -, rfl⟩ := List.mem_map.mp hb
    omega

/-- **An accumulator is stored once, after as many advances of the index as its row has rows before
it.** -/
theorem Tile.Saved.split {ls : List Line} (h : t.Saved ls) {i j : Nat} (hi : i < 4 * t.down)
    (hj : j < t.across) : ∃ pre post, ls = pre ++ .instruction (t.storeLine i j) :: post ∧
      pre.count (.instruction t.advanceLine) = i ∧
      ∀ l ∈ pre ++ post, ¬ Saves (t.accRegister i j) l := by
  obtain ⟨head, rfl, hhead⟩ := h
  obtain ⟨is, his, hafter⟩ := range_split hi
  obtain ⟨js, hjs, hbehind⟩ := range_split hj
  -- Row `i` is cut at texel `j`, and the rows are cut at row `i`.
  let stores (xs : List Nat) : List Line := xs.map fun j => .instruction (t.storeLine i j)
  have hrow : t.rowLines i = stores (List.range j) ++ .instruction (t.storeLine i j) ::
      (stores js ++ [.instruction t.advanceLine]) := by
    rw [Tile.rowLines, hjs]
    simp [stores]
  refine ⟨head ++ (List.range i).flatMap t.rowLines ++ stores (List.range j),
    stores js ++ [.instruction t.advanceLine] ++ is.flatMap t.rowLines, ?_, ?_, fun l hl => ?_⟩
  · rw [his, List.flatMap_append, List.flatMap_cons, hrow]
    simp
  · have hadd : t.advanceLine.mnemonic = .iadd := rfl
    have hzero : head.count (.instruction t.advanceLine) = 0 :=
      List.count_eq_zero_of_not_mem (not_mem_of_computes hhead (by rw [hadd]; decide))
    rw [List.count_append, List.count_append, hzero, count_advanceLine_rows, count_advanceLine_stores]
    omega
  · have hstores : ∀ xs : List Nat, (∀ x ∈ xs, x < t.across ∧ x ≠ j) → l ∈ stores xs →
        ¬ Saves (t.accRegister i j) l := by
      intro xs hxs hmem
      obtain ⟨x, hx, rfl⟩ := List.mem_map.mp hmem
      exact not_saves_storeLine hj (hxs x hx).1 fun _ => (hxs x hx).2
    have hrows : ∀ xs : List Nat, (∀ x ∈ xs, x ≠ i) → l ∈ xs.flatMap t.rowLines →
        ¬ Saves (t.accRegister i j) l := by
      intro xs hxs hmem
      obtain ⟨x, hx, hmem⟩ := List.mem_flatMap.mp hmem
      exact not_saves_rowLines hj (hxs x hx) hmem
    have hjs' : ∀ x ∈ js, x < t.across := fun x hx => by
      rw [← List.mem_range, hjs]
      exact List.mem_append_right _ (List.mem_cons_of_mem _ hx)
    simp only [List.mem_append, List.mem_singleton] at hl
    rcases hl with ((hl | hl) | hl) | (hl | rfl) | hl
    · exact not_saves_of_computes hhead hl
    · exact hrows _ (fun x hx => (List.mem_range.mp hx).ne) hl
    · refine hstores _ (fun x hx => ?_) hl
      have hlt := List.mem_range.mp hx
      omega
    · exact hstores _ (fun x hx => ⟨hjs' x hx, (hbehind x hx).ne'⟩) hl
    · exact not_saves_advanceLine _
    · exact hrows _ (fun x hx => (hafter x hx).ne') hl

/-! ### The program -/

/-- The code of a work item in parts: before the loop, in the loop up to the first break, between the
breaks and behind the second one, and after the loop. -/
structure Parts where
  before : List Line
  start : List Line
  limit : SourceOperand
  first : List Line
  guard : SourceOperand
  second : List Line
  after : List Line

namespace Parts

/-- The code of the parts. -/
def code (p : Parts) : List Line :=
  p.before ++ [.word .whileLoop] ++ p.start ++ [.test .breakTrue p.limit] ++ p.first ++
    [.test .breakTrue p.guard] ++ p.second ++ [.word .endLoop] ++ p.after

/-- The part of the loop before the second break, or the one behind it. -/
def half (p : Parts) (h : Nat) : List Line := if h = 0 then p.first else p.second

/-- The code multiplies a tile: there is no other flow than the loop with its breaks, each product of
the two rows is added once and nothing else is, and each accumulator is stored once at its place. -/
structure Multiplies (p : Parts) (t : Tile) : Prop where
  straight : ∀ l ∈ p.before ++ p.start ++ p.first ++ p.second ++ p.after,
    ∃ i : Instruction, l = .instruction i
  mad_once : ∀ h < 2, ∀ i < t.down, ∀ j < t.across, ∀ k : Lane,
    .instruction (t.madLine h i j k) ∈ p.half h ∧
      (p.start ++ p.first ++ p.second).count (.instruction (t.madLine h i j k)) = 1
  mad_only : ∀ l : Instruction, .instruction l ∈ p.start ++ p.first ++ p.second → l.mnemonic = .mad →
    ∃ h < 2, ∃ i < t.down, ∃ j < t.across, ∃ k : Lane, l = t.madLine h i j k
  saved : t.Saved p.after
  saved_once : ∀ i < 4 * t.down, ∀ j < t.across, ∃ pre post,
    p.after = pre ++ .instruction (t.storeLine i j) :: post ∧
      pre.count (.instruction t.advanceLine) = i ∧ ∀ l ∈ pre ++ post, ¬ Saves (t.accRegister i j) l
  offset : ∀ j < t.across, (Int64.ofNat j).toInt = j

end Parts

theorem isInstruction_of_computes {ms : List Mnemonic} {ls : List Line} (h : Line.Computes ms ls) :
    ∀ l ∈ ls, ∃ i : Instruction, l = .instruction i := by
  intro l hl
  obtain ⟨i, hi, -⟩ := h.mem hl
  exact ⟨i, hi⟩

theorem isInstruction_madLines {h : Nat} :
    ∀ l ∈ t.madLines h, ∃ i : Instruction, l = .instruction i := by
  intro l hl
  obtain ⟨i, -, j, -, k, rfl⟩ := Tile.mem_madLines.mp hl
  exact ⟨_, rfl⟩

theorem Tile.Saved.isInstruction {ls : List Line} (h : t.Saved ls) :
    ∀ l ∈ ls, ∃ i : Instruction, l = .instruction i := by
  obtain ⟨head, rfl, hhead⟩ := h
  intro l hl
  rcases List.mem_append.mp hl with hl | hl
  · exact isInstruction_of_computes hhead l hl
  · obtain ⟨i, -, hl⟩ := List.mem_flatMap.mp hl
    rcases List.mem_append.mp hl with hl | hl
    · obtain ⟨j, -, rfl⟩ := List.mem_map.mp hl
      exact ⟨_, rfl⟩
    · exact ⟨_, List.mem_singleton.mp hl⟩

/-- In a round only the products are multiply-adds. -/
theorem not_mem_of_mad {start loads test : List Line} {l : Instruction} (hl : l.mnemonic = .mad)
    (hstart : Line.Computes [.add, .ge] start)
    (hloads : Line.Computes (t.loadMnemonics [] ++ t.loadMnemonics [.add]) loads)
    (htest : Line.Computes [.lt] test) : Line.instruction l ∉ start ∧ Line.instruction l ∉ loads ∧
      Line.instruction l ∉ test := by
  have hloadsMad : Mnemonic.mad ∉ t.loadMnemonics [] ++ t.loadMnemonics [.add] := by
    rw [List.mem_append]
    exact not_or.mpr ⟨Tile.mad_not_mem_loadMnemonics (by decide),
      Tile.mad_not_mem_loadMnemonics (by decide)⟩
  refine ⟨not_mem_of_computes hstart ?_, not_mem_of_computes hloads ?_, not_mem_of_computes htest ?_⟩
  · rw [hl]
    decide
  · rw [hl]
    exact hloadsMad
  · rw [hl]
    decide

/-- What the pieces of the kernel add is a program that multiplies the tile. -/
theorem exists_parts {before round after : List Line} (ht : t.Sized)
    (hbefore : Line.Computes (t.setUpMnemonics target) before) (hround : t.Round round)
    (hafter : t.Saved after) : ∃ p : Parts, p.Multiplies t ∧
      p.code = before ++ (.word .whileLoop :: round ++ [.word .endLoop]) ++ after := by
  obtain ⟨start, loads, test, limit, guard, rfl, hstart, hloads, htest⟩ := hround
  refine ⟨⟨before, start, limit, loads ++ t.madLines 0 ++ test, guard, t.madLines 1, after⟩,
    ⟨fun l hl => ?_, fun h hh i hi j hj k => ⟨?_, ?_⟩, fun l hl hmad => ?_, hafter,
      fun i hi j hj => hafter.split hi hj, fun j hj => ?_⟩, by simp [Parts.code]⟩
  · simp only [List.mem_append] at hl
    rcases hl with (((hl | hl) | (hl | hl) | hl) | hl) | hl
    · exact isInstruction_of_computes hbefore l hl
    · exact isInstruction_of_computes hstart l hl
    · exact isInstruction_of_computes hloads l hl
    · exact isInstruction_madLines l hl
    · exact isInstruction_of_computes htest l hl
    · exact isInstruction_madLines l hl
    · exact hafter.isInstruction l hl
  · have hmem : Line.instruction (t.madLine h i j k) ∈ t.madLines h :=
      Tile.mem_madLines.mpr ⟨i, hi, j, hj, k, rfl⟩
    unfold Parts.half
    split_ifs with h0
    · subst h0
      exact List.mem_append_left _ (List.mem_append_right _ hmem)
    · have h1 : h = 1 := by omega
      subst h1
      exact hmem
  · obtain ⟨hs, hl, ht⟩ := not_mem_of_mad (l := t.madLine h i j k) rfl hstart hloads htest
    simp only [List.count_append, List.count_eq_zero_of_not_mem hs, List.count_eq_zero_of_not_mem hl,
      List.count_eq_zero_of_not_mem ht]
    rw [Tile.count_madLines hh (by decide) hi hj, Tile.count_madLines hh (by decide) hi hj]
    have hcases : h = 0 ∨ h = 1 := by omega
    rcases hcases with rfl | rfl
    · rfl
    · rfl
  · have hproduct : ∀ h < 2, Line.instruction l ∈ t.madLines h → ∃ h < 2, ∃ i < t.down,
        ∃ j < t.across, ∃ k : Lane, l = t.madLine h i j k := by
      intro h hh hmem
      obtain ⟨i, hi, j, hj, k, heq⟩ := Tile.mem_madLines.mp hmem
      exact ⟨h, hh, i, hi, j, hj, k, Line.instruction.inj heq⟩
    obtain ⟨hs, hlo, hte⟩ := not_mem_of_mad hmad hstart hloads htest
    simp only [List.mem_append, hs, hlo, hte, false_or, or_false] at hl
    rcases hl with hl | hl
    · exact hproduct 0 (by decide) hl
    · exact hproduct 1 (by decide) hl
  · have hlt := ht.across_lt
    exact Int64.toInt_ofNat_of_lt (by omega)

/-! ### Counts -/

namespace Tile

theorem length_madLines (h : Nat) : (t.madLines h).length = 4 * t.down * t.across := by
  have hinner : ∀ i, ((List.range t.across).flatMap fun j => (List.finRange 4).map fun k =>
      Line.instruction (t.madLine h i j k)).length = t.across * 4 := by
    intro i
    simp [List.length_flatMap]
  simp only [madLines, List.length_flatMap, hinner, List.map_const', List.sum_replicate,
    List.length_range, smul_eq_mul]
  ring

theorem length_loadMnemonics (ht : t.Sized) (shared : List Mnemonic) :
    (t.loadMnemonics shared).length + 2 = (t.down + t.across) * (shared.length + 5) := by
  have hacross := ht.across_pos
  have hdown := ht.down_pos
  have hone : ∀ input i,
      (MatMul.loadMnemonics input shared i).length = min i 1 + (shared.length + 4) := by
    intro input i
    simp only [MatMul.loadMnemonics, List.length_append, List.length_replicate, List.length_cons,
      List.length_nil]
    omega
  have hleft : t.down * (shared.length + 5) = t.down * (shared.length + 4) + t.down := Nat.mul_succ _ _
  have hright : t.across * (shared.length + 5) = t.across * (shared.length + 4) + t.across :=
    Nat.mul_succ _ _
  simp only [loadMnemonics, List.length_append, List.length_flatMap, hone, sum_range_min, Nat.add_mul]
  omega

theorem length_setUpMnemonics (target : Target) :
    (t.setUpMnemonics target).length = 4 * t.down * t.across + 3 := by
  simp only [setUpMnemonics, List.length_append, List.length_flatMap, List.length_cons,
    List.length_nil, List.map_const', List.sum_replicate, List.length_range, smul_eq_mul]
  omega

theorem Round.length {ls : List Line} (ht : t.Sized) (h : t.Round ls) :
    ls.length + 4 = 2 * (4 * t.down * t.across) + 11 * (t.across + t.down) + 5 := by
  obtain ⟨start, loads, test, limit, guard, rfl, hstart, hloads, htest⟩ := h
  have hfirst : (t.loadMnemonics []).length + 2 = (t.down + t.across) * 5 := length_loadMnemonics ht []
  have hsecond : (t.loadMnemonics [.add]).length + 2 = (t.down + t.across) * 6 :=
    length_loadMnemonics ht [.add]
  simp only [List.length_append, length_madLines, hstart.length, hloads.length, htest.length,
    List.length_cons, List.length_nil]
  omega

theorem Saved.length {ls : List Line} (h : t.Saved ls) :
    ls.length = 4 * t.down * t.across + 4 * t.down + 4 := by
  obtain ⟨head, rfl, hhead⟩ := h
  have hrow : ∀ i, (t.rowLines i).length = t.across + 1 := by
    intro i
    simp [rowLines]
  simp only [List.length_append, hhead.length, List.length_flatMap, hrow, List.map_const',
    List.sum_replicate, List.length_range, smul_eq_mul, Nat.mul_succ, List.length_cons, List.length_nil]
  omega

end Tile

/-! ### The kernel -/

theorem Tile.ofSize?_eq (x y : Int) : Tile.ofSize? x y =
    if 0 < x ∧ 0 < y ∧ 4 ∣ x ∧ 4 ∣ y then some ⟨(x / 4).toNat, (y / 4).toNat⟩ else none := by
  have hiff : (x ≤ 0 || y ≤ 0 || x % 4 != 0 || y % 4 != 0) = true ↔
      ¬ (0 < x ∧ 0 < y ∧ 4 ∣ x ∧ 4 ∣ y) := by
    simp only [Bool.or_eq_true, decide_eq_true_eq, bne_iff_ne, ne_eq]
    omega
  unfold Tile.ofSize?
  by_cases h : 0 < x ∧ 0 < y ∧ 4 ∣ x ∧ 4 ∣ y
  · rw [if_pos h, if_neg fun hbad => hiff.mp hbad h]
  · rw [if_neg h, if_pos (hiff.mpr h)]

theorem program_adds (ht : t.Sized) :
    Adds target unit [] (setUp (t.declared unit) ++ loop (t.declared unit))
      (1 + (7 * (t.down + t.across) - 2)) fun ls => ∃ before round,
        ls = before ++ (.word .whileLoop :: round ++ [.word .endLoop]) ∧
        Line.Computes (t.setUpMnemonics target) before ∧ t.Round round := by
  rw [loop_eq]
  refine ((setUp_adds ht).followed (loopBody_adds ht).loop).mono ?_
  rintro ls ⟨before, -, rfl, hbefore, round, rfl, hround⟩
  exact ⟨before, round, rfl, hbefore, hround⟩

/-- The kernel in a new unit, for a tile that has texels. -/
theorem run_tile {s : Assembler} {x y : Int} (ht : t.Sized) (htile : Tile.ofSize? x y = some t)
    (hs : s.Open target unit []) (hdraft : s.draft = {}) :
    ∃ (p : Parts) (s' : Assembler), (body x y).run s = .ok (none, s') ∧ s'.Open target unit [] ∧
      s'.draft.code.toList = p.code ∧ p.Multiplies t ∧
      s'.registers = 4 * t.down * t.across + 9 * (t.across + t.down) + 4 ∧
      s'.instructions = 4 * (4 * t.down * t.across) + 11 * (t.across + t.down) + 4 * t.down + 10 := by
  obtain ⟨hphase, hreport, htarget, hunit, hflow⟩ := hs
  have hdown := ht.down_pos
  -- The states after the declarations, after the loop, after the index and the step, and at the end.
  let s₁ : Assembler := { s with draft := s.draft.taken (t.rowStart 2 + 1) }
  have hdeclared : declareVariables t s = .ok (t.declared unit, s₁) := by
    rw [← hunit]
    exact declareVariables_ok hphase hreport (by rw [hdraft])
  have hs₁ : s₁.Open target unit [] := ⟨hphase, hreport, htarget, hunit, hflow⟩
  obtain ⟨-, s₂, hmakes, before, round, rfl, hbefore, hround⟩ := program_adds ht s₁ hs₁
  have hs₂ := hmakes.isOpen hs₁
  -- All registers but the last four are taken by now, so the index has the number that the lines give it.
  have hnext : s₂.draft.next = t.indexRegister := by
    have hadded := hmakes.next
    have hstart : s₁.draft.next = t.rowStart 2 + 1 := by
      change s.draft.next + (t.rowStart 2 + 1) = _
      rw [hdraft, Nat.zero_add]
    unfold Tile.rowStart at hstart
    unfold Tile.indexRegister
    omega
  let s₃ : Assembler := { s₂ with draft := s₂.draft.taken 1 }
  let s₄ : Assembler := { s₃ with draft := s₃.draft.taken 1 }
  have hindex : Build.declare .uint1 s₂ = .ok (⟨.uint1, some ⟨unit, t.indexRegister⟩⟩, s₃) := by
    rw [← hnext, ← hs₂.unit_eq]
    exact declare_ok rfl hs₂.phase hs₂.report
  have hstep : Build.declare .uint1 s₃ = .ok (⟨.uint1, some ⟨unit, t.indexRegister + 1⟩⟩, s₄) := by
    rw [← hnext, ← hs₂.unit_eq]
    exact declare_ok rfl hs₂.phase hs₂.report
  have hs₄ : s₄.Open target unit [] := ⟨hs₂.phase, hs₂.report, hs₂.target_eq, hs₂.unit_eq, hs₂.flow_eq⟩
  obtain ⟨after, s₅, hmakes', hafter⟩ := store_adds s₄ hs₄
  have hs₅ := hmakes'.isOpen hs₄
  have hcode : s₅.draft.code.toList =
      before ++ (.word .whileLoop :: round ++ [.word .endLoop]) ++ after := by
    have hempty : s₁.draft.code.toList = [] := by
      change s.draft.code.toList = []
      rw [hdraft]
    have hmid : s₄.draft.code.toList = s₂.draft.code.toList := rfl
    rw [hmakes'.code, hmid, hmakes.code, hempty, List.nil_append]
  obtain ⟨p, hp, hparts⟩ := exists_parts ht hbefore hround hafter
  refine ⟨p, s₅, ?_, hs₅, hcode.trans hparts.symm, hp, ?_, ?_⟩
  · change body x y s = _
    unfold body
    rw [htile]
    change (declareVariables t >>= _) s = _
    rw [bind_of_ok hdeclared, bind_of_ok (perform_ok hmakes), bind_of_ok hindex, bind_of_ok hstep,
      bind_of_ok (perform_ok hmakes')]
    change Except.ok (s₅.report.map KernelError.report, s₅) = _
    rw [hs₅.report]
    rfl
  · have hadded := hmakes'.next
    have hstart : s₄.draft.next = s₂.draft.next + 2 := rfl
    change s₅.draft.next = _
    unfold Tile.indexRegister at hnext
    omega
  · have hround' := hround.length ht
    have hstart : s₁.draft.instructions = 0 := by
      change s.draft.instructions = 0
      rw [hdraft]
    have hmid : s₄.draft.instructions = s₂.draft.instructions := rfl
    change s₅.draft.instructions = _
    rw [hmakes'.counted, hmid, hmakes.counted, hstart]
    simp only [List.length_append, List.length_cons, List.length_nil, hbefore.length, hafter.length,
      Tile.length_setUpMnemonics]
    omega

/-- **The kernel multiplies tiles of every size.** Let `x` and `y` be any machine words. In a new unit
of either target the kernel succeeds for positive multiples of four. Its accumulators are in the
registers that number them row by row, which are different. Its code is one loop with two breaks: each
product of the two rows that a round takes is added exactly once, those of the first row before the
second break and those of the second behind it, and no others are; after the loop each accumulator is
stored exactly once, at its texel behind the index, when the step has been added to the index once for
each row before it. The registers and the instructions are counted. For all other sizes the kernel gives
up and leaves the unit as it was. -/
theorem body_multiplies_every_tile (x y : Int64) {s₀ s : Assembler} (hbegin : s₀.begin = .ok s) :
    let t : Tile := ⟨(x.toInt / 4).toNat, (y.toInt / 4).toNat⟩
    let rows := y.toInt.toNat
    (0 < x.toInt ∧ 0 < y.toInt ∧ 4 ∣ x.toInt ∧ 4 ∣ y.toInt →
      (∃ v s₁, (declareVariables t).run s = .ok (v, s₁) ∧ v = t.declared s.unit ∧
        ∀ i < rows, ∀ j < t.across, v.acc i j = ⟨.float4, some ⟨s.unit, i * t.across + j⟩⟩) ∧
      (∀ i < rows, ∀ j < t.across, ∀ i' < rows, ∀ j' < t.across,
        t.accRegister i j = t.accRegister i' j' → i = i' ∧ j = j') ∧
      ∃ (p : Parts) (s' : Assembler), (body x.toInt y.toInt).run s = .ok (none, s') ∧
        s'.report = none ∧ s'.flow = [] ∧ s'.draft.code.toList = p.code ∧ p.Multiplies t ∧
        s'.registers = rows * t.across + 9 * (t.across + t.down) + 4 ∧
        s'.instructions = 4 * rows * t.across + 11 * (t.across + t.down) + rows + 10) ∧
    (¬ (0 < x.toInt ∧ 0 < y.toInt ∧ 4 ∣ x.toInt ∧ 4 ∣ y.toInt) →
      (body x.toInt y.toInt).run s = .ok (some (.tile x.toInt y.toInt), s)) := by
  intro t rows
  obtain ⟨hphase, hreport, hdraft⟩ := Assembler.begin_spec hbegin
  have hflow : s.flow = [] := by
    unfold Assembler.begin at hbegin
    split_ifs at hbegin
    cases hbegin
    rfl
  have hsize := Tile.ofSize?_eq x.toInt y.toInt
  refine ⟨fun h => ?_, fun h => ?_⟩
  · have hx := Int64.toInt_lt x
    have hy := Int64.toInt_lt y
    have hrows : rows = 4 * t.down := by
      change y.toInt.toNat = 4 * (y.toInt / 4).toNat
      omega
    have hacross : 0 < t.across ∧ t.across < 2 ^ 61 := by
      change 0 < (x.toInt / 4).toNat ∧ (x.toInt / 4).toNat < 2 ^ 61
      omega
    have hdown : 0 < t.down ∧ t.down < 2 ^ 61 := by
      change 0 < (y.toInt / 4).toNat ∧ (y.toInt / 4).toNat < 2 ^ 61
      omega
    have ht : t.Sized := ⟨hacross.1, hdown.1, hacross.2, hdown.2⟩
    rw [if_pos h] at hsize
    obtain ⟨p, s', hrun, hs', hcode, hp, hregisters, hinstructions⟩ :=
      run_tile ht hsize ⟨hphase, hreport, rfl, rfl, hflow⟩ hdraft
    rw [hrows]
    refine ⟨⟨_, _, declareVariables_ok hphase hreport (by rw [hdraft]), rfl, fun i hi j hj =>
        acc_declared hi hj⟩, fun i _ j hj i' _ j' hj' heq => Tile.accRegister_inj hj hj' heq,
      p, s', hrun, hs'.report, hs'.flow_eq, hcode, hp, hregisters, ?_⟩
    rw [hinstructions, Nat.mul_assoc 4 (4 * t.down) t.across]
  · rw [if_neg h] at hsize
    change body x.toInt y.toInt s = _
    unfold body
    rw [hsize]
    rfl

/-- The premises can be met: a tile of two texels across and one row of texels down. -/
theorem body_multiplies_eight_by_four :
    let s : Assembler := { phase := .building, generation := 1 }
    ({} : Assembler).begin = .ok s ∧ ∃ (p : Parts) (s' : Assembler),
      (body 8 4).run s = .ok (none, s') ∧ s'.draft.code.toList = p.code ∧ p.Multiplies ⟨2, 1⟩ ∧
        s'.registers = 39 ∧ s'.instructions = 79 := by
  intro s
  have hbegin : ({} : Assembler).begin = .ok s := rfl
  have h8 : (8 : Int64).toInt = 8 := rfl
  have h4 : (4 : Int64).toInt = 4 := rfl
  obtain ⟨hgood, -⟩ := body_multiplies_every_tile 8 4 hbegin
  rw [h8, h4] at hgood
  obtain ⟨-, -, p, s', hrun, -, -, hcode, hp, hregisters, hinstructions⟩ := hgood (by decide)
  exact ⟨hbegin, p, s', hrun, hcode, hp, hregisters, hinstructions⟩

end ShaderIL.MatMul
