import ShaderIL.Proofs.Assembler.Run
import ShaderIL.Proofs.Expr.Assignment
import ShaderIL.Proofs.Expr.Uses
import ShaderIL.Proofs.Machine.Basic

/-!
# Writing a destination straight away

An operation that is one line may write the register it is assigned to; otherwise its value goes to a
fresh register and is moved. Both leave the same contents behind, fresh registers apart, also where the
destination occurs in the value: a line reads all its sources before it writes.

Nothing is assumed of the instructions. An `Interpretation` gives every mnemonic an arbitrary function of
the four-lane vectors its sources supply, and every place but a temporary an arbitrary cell, which may be
that of a temporary. The lane machine is one (`Machine.run_interpretation`). The two ways have the code of
the operands in common; the last line differs in its destination only (`Overload.emit_movedTo`), and the
move undoes the difference (`Interpretation.agree_moved`).
-/

namespace ShaderIL

/-- A meaning of instructions: functions of four-lane vectors. -/
structure Interpretation where
  /-- What a mnemonic makes of the vectors that its sources supply. -/
  effect : Mnemonic → List (Lane → UInt32) → Lane → UInt32
  /-- A move copies position by position. -/
  effect_mov : ∀ x, effect .mov [x] = x
  /-- What a modifier makes of a source with that many lanes. -/
  modify : Sign → Nat → (Lane → UInt32) → Lane → UInt32
  modify_plain : ∀ n x, modify .plain n x = x
  /-- The cell a place stands for. -/
  cell : Contents → Place → Cell
  cell_temp : ∀ σ r, cell σ (.temp r) = .register (.temp r)

namespace Interpretation

variable (I : Interpretation)

/-- The vector a source supplies. -/
def supply (σ : Contents) (s : SourceOperand) : Lane → UInt32 :=
  I.modify s.sign s.lanes.count fun p => σ (I.cell σ s.place) (s.lanes.laneAt p.val)

/-- One instruction: all sources are read, then the lanes of the mask are written. -/
def step (σ : Contents) (i : Instruction) : Contents := fun c l =>
  if c = I.cell σ i.dst.place ∧ i.dst.mask.has l = true then
    I.effect i.mnemonic (i.srcs.map (I.supply σ)) l
  else σ c l

/-- Instructions one after the other. -/
def run (σ : Contents) (is : List Instruction) : Contents := is.foldl I.step σ

theorem run_append (σ : Contents) (is js : List Instruction) :
    I.run σ (is ++ js) = I.run (I.run σ is) js :=
  List.foldl_append ..

end Interpretation

/-! ### The lane machine -/

namespace Machine

variable (m : Machine)

/-- A mnemonic looks at the four positions of a register only. -/
theorem apply_congr (n : Mnemonic) {α : Type} (as : List α) {f g : α → Nat → UInt32}
    (h : ∀ a ∈ as, ∀ p < 4, f a p = g a p) {p : Nat} (hp : p < 4) :
    m.apply n (as.map f) p = m.apply n (as.map g) p := by
  have hfirst : ∀ q < 4, (as.map f).getD 0 (fun _ => 0) q = (as.map g).getD 0 (fun _ => 0) q := by
    intro q hq
    cases as with
    | nil => rfl
    | cons a as => exact h a List.mem_cons_self q hq
  have hpairs : p / 2 * 2 < 4 ∧ p / 2 * 2 + 1 < 4 := by omega
  have hgather : ∀ k ≤ 4, ∀ a ∈ as, (List.range k).map (f a) = (List.range k).map (g a) := by
    intro k hk a ha
    refine List.map_congr_left fun q hq => h a ha q ?_
    have hqk := List.mem_range.mp hq
    omega
  have hshape : ∀ k, n.shape = .gathers k → k ≤ 4 := by
    intro k hk
    cases n <;> cases hk <;> decide
  unfold apply
  cases hn : n.shape with
  | move => exact hfirst p hp
  | words =>
    simp only [List.map_map]
    exact congrArg _ (List.map_congr_left fun a ha => h a ha p hp)
  | pairs =>
    simp only [List.map_map]
    refine congrArg (fun ws => half p (m.pair n ws)) (List.map_congr_left fun a ha => ?_)
    simp only [Function.comp_apply, h a ha _ hpairs.1, h a ha _ hpairs.2]
  | narrows => simp only [hfirst 0 (by omega), hfirst 1 (by omega)]
  | widens => simp only [hfirst 0 (by omega)]
  | gathers k =>
    simp only [List.map_map]
    refine congrArg (fun ws => m.gather n ws p) (List.map_congr_left fun a ha => ?_)
    exact hgather k (hshape k hn) a ha

/-- The lane machine as an interpretation. -/
def interpretation : Interpretation where
  effect n xs l := m.apply n (xs.map fun x p => x (.ofIndex p)) l.val
  effect_mov x := by
    funext l
    exact congrArg x (Fin.ext (Lane.val_ofIndex l.isLt))
  modify sign count x p := if sign.hits count p.val then m.negate (x p) else x p
  modify_plain _ _ := rfl
  cell := m.cell
  cell_temp _ _ := rfl

theorem step_interpretation (σ : Contents) (i : Instruction) :
    m.interpretation.step σ i = m.step σ i := by
  funext c l
  unfold Interpretation.step step
  refine if_congr Iff.rfl ?_ rfl
  have hmap : (i.srcs.map (m.interpretation.supply σ)).map (fun x p => x (.ofIndex p)) =
      i.srcs.map fun s p => m.interpretation.supply σ s (.ofIndex p) := List.map_map
  change m.apply i.mnemonic ((i.srcs.map (m.interpretation.supply σ)).map _) l.val = _
  rw [hmap]
  refine m.apply_congr i.mnemonic i.srcs (fun s _ p hp => ?_) l.isLt
  have hval : (Lane.ofIndex p).val = p := Lane.val_ofIndex hp
  simp only [Interpretation.supply, interpretation, supply, hval]

theorem run_interpretation (σ : Contents) (is : List Instruction) :
    m.interpretation.run σ is = m.run σ is := by
  have hstep : m.interpretation.step = m.step :=
    funext fun σ => funext fun i => m.step_interpretation σ i
  rw [Interpretation.run, hstep, run]

end Machine

/-! ### A line with another destination -/

/-- The operand at another place. -/
def Operand.movedTo (o : Operand) (p : Place) : Operand := { o with place := p }

/-- The instruction with the same mask at another place. -/
def Instruction.movedTo (i : Instruction) (p : Place) : Instruction :=
  { i with dst := { i.dst with place := p } }

theorem Operand.select_movedTo (o : Operand) (p : Place) (s : Swizzle) :
    (o.movedTo p).select s = (o.select s).map (·.movedTo p) := by
  unfold select
  simp only [movedTo]
  split
  · split_ifs <;> rfl
  · rfl

theorem Operand.component_movedTo (o : Operand) (p : Place) (i : Int) :
    (o.movedTo p).component i = (o.component i).map (·.movedTo p) := by
  unfold component
  cases Swizzle.ofNumbers 1 fun _ => i with
  | error => rfl
  | ok s => exact o.select_movedTo p s

theorem Operand.span_movedTo (o : Operand) (p : Place) (start n : Int) :
    (o.movedTo p).span start n = (o.span start n).map (·.movedTo p) := by
  unfold span
  cases Swizzle.ofNumbers n fun i => start + i with
  | error => rfl
  | ok s => exact o.select_movedTo p s

theorem Operands.target_movedTo (o : Operands) (p : Place) {t : PatternTarget}
    (ht : t.scratch? = none) :
    Operands.target { o with result := o.result.movedTo p } t =
      (o.target t).map (·.movedTo p) := by
  cases t with
  | result => rfl
  | resultComponent i => exact o.result.component_movedTo p i
  | resultSpan start n => exact o.result.span_movedTo p start n
  | scratch i => cases ht

/-- What a pattern reads does not depend on where it writes. -/
theorem Operands.source_movedTo (o : Operands) (p : Place) (dst : Operand) (s : PatternSource) :
    Operands.source { o with result := o.result.movedTo p } (dst.movedTo p) s = o.source dst s := by
  have hread : ∀ slot, Operands.read { o with result := o.result.movedTo p } slot = o.read slot := by
    intro slot
    cases slot <;> rfl
  cases s with
  | whole slot sign => simp only [source, hread]
  | component slot i => simp only [source, hread]
  | aligned slot =>
    simp only [source, hread]
    rfl

theorem Pattern.instantiate_movedTo (pat : Pattern) (o : Operands) (p : Place)
    (ht : pat.target.scratch? = none) :
    pat.instantiate { o with result := o.result.movedTo p } =
      (pat.instantiate o).map (·.movedTo p) := by
  unfold instantiate
  rw [o.target_movedTo p ht]
  cases o.target pat.target with
  | error => rfl
  | ok dst =>
    have hsource : Operands.source { o with result := o.result.movedTo p } (dst.movedTo p) =
        o.source dst := funext (o.source_movedTo p dst)
    change (pat.sources.mapM (Operands.source { o with result := o.result.movedTo p }
      (dst.movedTo p)) >>= fun srcs => pure (⟨pat.mnemonic, (dst.movedTo p).destination, srcs⟩ :
        Instruction)) = Except.map _ (pat.sources.mapM (o.source dst) >>= fun srcs =>
          pure (⟨pat.mnemonic, dst.destination, srcs⟩ : Instruction))
    rw [hsource]
    cases pat.sources.mapM (o.source dst) with
    | error => rfl
    | ok srcs => rfl

namespace Overload

variable {f : Overload} {D : Operand} {args : List Operand}

/-- Without scratch registers every line writes the result. -/
theorem Sound.scratch?_eq_none (hf : f.Sound) (hscratch : f.scratch = 0) {pat : Pattern}
    (hpat : pat ∈ f.body) : pat.target.scratch? = none := by
  have hlegal := hf.target_legal pat hpat
  cases ht : pat.target with
  | result | resultComponent | resultSpan => rfl
  | scratch i =>
    rw [ht] at hlegal
    have hlt : i < f.scratch := hlegal
    omega

theorem emit_eq_bind (f : Overload) (D : Operand) (args scratch : List Operand) :
    f.emit D args scratch = (if f.splat then f.widenSources f.args args else .ok args) >>=
      fun sources => f.body.mapM fun p => p.instantiate ⟨D, sources, scratch⟩ := by
  unfold emit
  split_ifs <;> rfl

theorem emit_movedTo (hf : f.Sound) (hsingle : f.single = true) (D : Operand) (args : List Operand)
    (p : Place) :
    f.emit (D.movedTo p) args [] = (f.emit D args []).map (List.map (·.movedTo p)) := by
  obtain ⟨pat, hbody⟩ := List.length_eq_one_iff.mp (hf.single_iff.mp hsingle)
  have hmem : pat ∈ f.body := by simp [hbody]
  have ht := hf.scratch?_eq_none (hf.scratch_of_single hsingle) hmem
  rw [emit_eq_bind, emit_eq_bind, hbody]
  cases (if f.splat then f.widenSources f.args args else .ok args) with
  | error => rfl
  | ok sources =>
    have hpat := pat.instantiate_movedTo ⟨D, sources, []⟩ p ht
    change ([pat].mapM fun q => q.instantiate ⟨D.movedTo p, sources, []⟩) =
      Except.map _ ([pat].mapM fun q => q.instantiate ⟨D, sources, []⟩)
    simp only [List.mapM_cons, List.mapM_nil]
    rw [hpat]
    cases pat.instantiate ⟨D, sources, []⟩ with
    | error => rfl
    | ok i => rfl

/-- The line of an overload of one line writes all lanes of the result and no others. -/
theorem emit_single (hf : f.Sound) (hsingle : f.single = true) {q : Nat} {is : List Instruction}
    (h : f.emit (.ofType (.temp q) f.result) args [] = .ok is) :
    ∃ line, is = [line] ∧ line.dst.place = .temp q ∧
      ∀ l : Lane, line.dst.mask.has l = true ↔ l.val < f.result.lanes := by
  obtain ⟨pat, hbody⟩ := List.length_eq_one_iff.mp (hf.single_iff.mp hsingle)
  have hmem : pat ∈ f.body := by simp [hbody]
  have hlegal := hf.target_legal pat hmem
  have hscratch := hf.scratch?_eq_none (hf.scratch_of_single hsingle) hmem
  have hfits := Operand.ofType_fits (.temp q) hf.result_valid
  rw [emit_eq_bind] at h
  obtain ⟨sources, -, hemit⟩ := except_bind_eq_ok.mp h
  rw [hbody, List.mapM_cons, List.mapM_nil] at hemit
  obtain ⟨line, hline, hrest⟩ := except_bind_eq_ok.mp hemit
  cases hrest
  obtain ⟨dst, htarget, hsources⟩ := except_bind_eq_ok.mp hline
  obtain ⟨srcs, -, hsrcs⟩ := except_bind_eq_ok.mp hsources
  cases hsrcs
  have hdst : dst = Operands.targetOperand ⟨.ofType (.temp q) f.result, sources, []⟩ pat.target := by
    refine Except.ok.inj (htarget.symm.trans ?_)
    cases ht : pat.target with
    | result => rfl
    | resultComponent i =>
      rw [ht] at hlegal
      exact Operand.component_eq hfits hf.result_valid hlegal
    | resultSpan start n =>
      rw [ht] at hlegal
      exact Operand.span_eq hfits hf.result_valid hlegal.1 hlegal.2
    | scratch i =>
      rw [ht] at hscratch
      cases hscratch
  have hsame : ∀ xs ys, Operands.targetOperand ⟨.ofType (.temp q) f.result, sources, []⟩ pat.target =
      Operands.targetOperand ⟨.ofType (.temp q) f.result, xs, ys⟩ pat.target := by
    intro xs ys
    cases ht : pat.target with
    | result | resultComponent | resultSpan => rfl
    | scratch i =>
      rw [ht] at hscratch
      cases hscratch
  refine ⟨_, rfl, ?_, fun l => ?_⟩
  · rw [hdst]
    exact Operands.targetOperand_place hscratch
  · have hcovered := fun hl => has_targetOperand (o := ⟨.ofType (.temp q) f.result, sources, []⟩)
      hf rfl hlegal hscratch (l := l) hl
    rw [hdst]
    constructor
    · intro hl
      have hline : _ ∈ f.lines (.ofType (.temp q) f.result) [] 0 := List.mem_map_of_mem hmem
      rcases lines_dst hf hfits hline with ⟨-, hmask⟩ | ⟨i, hi, -⟩
      · have hwide := hmask l (by rw [Pattern.filled, ← hsame]; exact hl)
        rwa [Operand.has_mask, Operand.mem_ofType] at hwide
      · rw [hf.scratch_of_single hsingle] at hi
        cases hi
    · intro hl
      refine (hcovered hl).mpr ?_
      obtain ⟨p, hp, hc⟩ := hf.covers _ (ValueType.component_lt hl)
      rw [hbody, List.mem_singleton] at hp
      rwa [hp] at hc

end Overload

/-! ### A line and a move -/

theorem moveLine_ofType {t : ValueType} (ht : t.valid = true) (q r : Nat) :
    moveLine (.ofType (.temp q) t) (.ofType (.temp r) t) =
      ⟨.mov, (Operand.ofType (.temp q) t).destination, [(Operand.ofType (.temp r) t).source]⟩ := by
  have hcount : (Swizzle.identity t.lanes).count = t.lanes :=
    Swizzle.count_identity (ValueType.lanes_le_four ht)
  have hid : (Swizzle.identity t.lanes).isIdentity = true := by
    rw [Swizzle.isIdentity, hcount, beq_self_eq_true]
  have hkeep : (Operand.ofType (.temp r) t).widenedTo (.ofType (.temp q) t) = .ofType (.temp r) t := by
    refine if_neg ?_
    rw [(Operand.ofType_fits _ ht).components_eq, (Operand.ofType_fits _ ht).components_eq]
    simp only [Bool.and_eq_true, beq_iff_eq, decide_eq_true_eq]
    omega
  have halign : (Operand.ofType (.temp r) t).alignedLanes (.ofType (.temp q) t) =
      (Operand.ofType (.temp r) t).lanes := by
    simp only [Operand.alignedLanes, Operand.ofType, hid, Bool.true_or, if_true]
  rw [moveLine, hkeep, Operand.alignedTo, halign]
  rfl

namespace Interpretation

variable {I : Interpretation}

theorem supply_ofType {t : ValueType} (ht : t.valid = true) (σ : Contents) (r : Nat) {l : Lane}
    (hl : l.val < t.lanes) :
    I.supply σ (Operand.ofType (.temp r) t).source l = σ (.register (.temp r)) l := by
  have hcount : l.val < (Operand.ofType (.temp r) t).lanes.count := by
    rw [(Operand.ofType_fits _ ht).count]
    exact hl
  have hlane : (Operand.ofType (.temp r) t).lanes.laneAt l.val = l := by
    rw [Swizzle.laneAt_of_lt hcount]
    exact Fin.ext (Operand.val_getD_ofType _ ht hl)
  simp only [supply, Operand.source, Operand.signed, I.modify_plain]
  rw [hlane]
  exact congrFun (congrArg σ (I.cell_temp σ r)) l

/-- A line that writes all lanes of a type does the same as the line into another register followed by
a move, that register apart. -/
theorem agree_moved {t : ValueType} (ht : t.valid = true) {line : Instruction} {q : Nat}
    (hplace : line.dst.place = .temp q)
    (hmask : ∀ l : Lane, line.dst.mask.has l = true ↔ l.val < t.lanes) (σ : Contents) (r : Nat)
    {c : Cell} (hc : c ≠ .register (.temp r)) (l : Lane) :
    I.run σ [line] c l =
      I.run σ [line.movedTo (.temp r), moveLine (.ofType (.temp q) t) (.ofType (.temp r) t)] c l := by
  have hmove : ∀ l : Lane, (Operand.ofType (.temp q) t).mask.has l = true ↔ l.val < t.lanes := by
    intro l
    rw [Operand.has_mask, Operand.mem_ofType]
  rw [moveLine_ofType ht]
  change I.step σ line c l = I.step (I.step σ (line.movedTo (.temp r))) _ c l
  -- away from the fresh register its line changes nothing
  have haway : I.step σ (line.movedTo (.temp r)) c l = σ c l := by
    refine if_neg ?_
    rintro ⟨hcell, -⟩
    exact hc (hcell.trans (I.cell_temp σ r))
  by_cases hwritten : c = .register (.temp q) ∧ l.val < t.lanes
  · obtain ⟨rfl, hl⟩ := hwritten
    have hdirect : I.step σ line (.register (.temp q)) l =
        I.effect line.mnemonic (line.srcs.map (I.supply σ)) l :=
      if_pos ⟨by rw [hplace, I.cell_temp], (hmask l).mpr hl⟩
    have hfresh : I.step σ (line.movedTo (.temp r)) (.register (.temp r)) l =
        I.effect line.mnemonic (line.srcs.map (I.supply σ)) l :=
      if_pos ⟨(I.cell_temp σ r).symm, (hmask l).mpr hl⟩
    rw [hdirect, step, if_pos ⟨(I.cell_temp _ q).symm, (hmove l).mpr hl⟩]
    rw [List.map_singleton, I.effect_mov, supply_ofType ht _ r hl, hfresh]
  · have hdirect : I.step σ line c l = σ c l := by
      refine if_neg ?_
      rintro ⟨hcell, hl⟩
      rw [hplace, I.cell_temp] at hcell
      exact hwritten ⟨hcell, (hmask l).mp hl⟩
    rw [hdirect, step, if_neg, haway]
    rintro ⟨hcell, hl⟩
    exact hwritten ⟨hcell.trans (I.cell_temp _ q), (hmove l).mp hl⟩

end Interpretation

/-! ### Assignments -/

/-- The code of an operation is that of its operands, then its own into a fresh register. -/
theorem Expr.emit_of_overload (target : Target) {e : Expr} {f : Overload}
    (hf : e.overload? = some f) (d : Draft) :
    e.emit target d = (Expr.emitAll target e.children >>= Overload.emitFresh (some f)) d := by
  have hnode : ∀ x cause, e ≠ unselected x cause := by
    rintro x cause rfl
    cases hf
  have hfinish : e.finish target = Overload.emitFresh e.overload? ∧ e.opened d = d := by
    cases e with
    | unary | convert | binary | ternary => exact ⟨rfl, rfl⟩
    | _ => cases hf
  rw [Expr.emit_eq target hnode, hfinish.1, hfinish.2, hf]

theorem Overload.emitInto_of_single {f : Overload} (hf : f.Sound) (hsingle : f.single = true)
    (D : Operand) (args : List Operand) (d d' : Draft) :
    f.emitInto D args d = .ok ((), d') ↔ ∃ is, f.emit D args [] = .ok is ∧ d' = d.appended is := by
  have hnone := hf.scratch_of_single hsingle
  rw [emitInto, hnone, Emit.bind_of_ok (Draft.allocMany_eq _ 0 d), Emit.bind_lift_ok_iff]
  constructor
  · rintro ⟨is, his, hwrite⟩
    rw [Draft.writeAll_eq] at hwrite
    cases hwrite
    exact ⟨is, his, rfl⟩
  · rintro ⟨is, his, rfl⟩
    exact ⟨is, his, rfl⟩

namespace LValue

variable {target : Target} {e : Expr} {dst : LValue} {f : Overload} {d d' : Draft}

/-- An assignment that takes the direct path has a whole register of the result type to write. -/
theorem store_of_direct (hf : dst.direct? e = some f) (hstore : dst.store target e d = .ok ((), d')) :
    e.overload? = some f ∧ f.single = true ∧ ∃ q,
      dst.operand? = some (.ofType (.temp q) f.result) ∧
      dst.store target e d = emitTo target (.ofType (.temp q) f.result) (some f) e d := by
  cases dst with
  | var v =>
    have hdirect : e.direct? v.declared = some f := hf
    obtain ⟨hover, hsingle, hresult⟩ := direct?_spec hdirect
    obtain ⟨D, d₁, hoperand, -⟩ := Emit.bind_ok_iff.mp hstore
    cases hhome : v.home with
    | none =>
      rw [Variable.operand, hhome] at hoperand
      cases hoperand
    | some home =>
      refine ⟨hover, hsingle, home.register, ?_, ?_⟩
      · rw [hresult, operand?, hhome]
        rfl
      · rw [store, Emit.bind_of_ok (Variable.operand_ok hhome d), hdirect, hresult]
  | view v mask =>
    obtain ⟨s, d₁, hlanes, hrest⟩ := Emit.bind_ok_iff.mp hstore
    obtain ⟨hs, rfl⟩ := orFault_ok_iff.mp hlanes
    simp only [direct?, hs, Option.ite_none_right_eq_some] at hf
    obtain ⟨hid, hdirect⟩ := hf
    obtain ⟨hover, hsingle, hresult⟩ := direct?_spec hdirect
    have hvalid := (Expr.overload?_spec hover).1.result_valid
    rw [hresult] at hvalid
    obtain ⟨hd, s', hs', hvec, htype⟩ := Variable.viewType_valid hvalid
    cases hs.symm.trans hs'
    obtain ⟨hmax, -, h4, -⟩ := Variable.viewLanes_spec hd hs
    cases hhome : v.home with
    | none =>
      -- a variable without a register has no operand
      obtain ⟨D, d₂, hview, -⟩ := Emit.bind_ok_iff.mp hrest
      obtain ⟨_, d₃, -, hview⟩ := Emit.bind_ok_iff.mp hview
      obtain ⟨x, d₄, hx, -⟩ := Emit.bind_ok_iff.mp hview
      rw [Variable.operand, hhome] at hx
      cases hx
    | some home =>
      have hpicked := Operand.picked_of_isIdentity (.temp home.register) hd hid hmax h4 hvec
      have hoperand : v.viewOperand mask d = .ok (.ofType (.temp home.register) f.result, d) := by
        rw [Variable.viewOperand, Emit.bind_of_ok (orFault_ok hs d),
          Emit.bind_of_ok (Variable.operand_ok hhome d), hresult, htype, ← hpicked]
        exact Emit.lift_ok (Operand.select_eq (Operand.ofType_fits _ hd) hd hmax hvec) d
      refine ⟨hover, hsingle, home.register, ?_, ?_⟩
      · simp only [operand?, hhome, hs]
        rw [hpicked, hresult, htype]
      · rw [store, Emit.bind_of_ok (orFault_ok hs d), Emit.bind_of_ok hoperand, if_pos hid, hdirect]
  | element t a => cases hf

/-- **The direct path agrees with the plain one.** Where an assignment to a variable or to lanes of one
takes it, the operation at the root is one line, written after the code of its operands. Computed into
a fresh register and moved, the value takes the same code, that line with the fresh register as
destination, and the move; and under every interpretation both codes leave the same contents, fresh
registers apart. -/
theorem store_direct_agrees (hf : dst.direct? e = some f)
    (hstore : dst.store target e d = .ok ((), d')) :
    e.overload? = some f ∧ f.body.length = 1 ∧ ∃ D, dst.operand? = some D ∧
      dst.store target e d = emitTo target D (some f) e d ∧
      ∃ args d₁ is line r plain,
        Expr.emitAll target e.children d = .ok (args, d₁) ∧
        d₁.code.toList = d.code.toList ++ is.map .instruction ∧
        d'.code.toList = d.code.toList ++ (is ++ [line]).map .instruction ∧
        emitTo target D none e d = .ok ((), plain) ∧ d.next ≤ r ∧
        plain.code.toList = d.code.toList ++
          (is ++ [line.movedTo (.temp r), moveLine D (.ofType (.temp r) f.result)]).map
            .instruction ∧
        ∀ (I : Interpretation) (σ : Contents), Contents.Agree d.next
          (I.run σ (is ++ [line.movedTo (.temp r), moveLine D (.ofType (.temp r) f.result)]))
          (I.run σ (is ++ [line])) := by
  obtain ⟨hover, hsingle, q, hD, hpath⟩ := store_of_direct hf hstore
  obtain ⟨hs, -, -, hoperands⟩ := Expr.overload?_spec hover
  rw [hpath] at hstore
  obtain ⟨args, d₁, hargs, hinto⟩ := Emit.bind_ok_iff.mp hstore
  rw [hoperands] at hargs
  obtain ⟨is, his⟩ := Emit.Growing.exprs target e.children d _ _ hargs
  obtain ⟨lines, hline, rfl⟩ := (Overload.emitInto_of_single hs hsingle _ args d₁ d').mp hinto
  obtain ⟨line, rfl, hplace, hmask⟩ := Overload.emit_single hs hsingle hline
  -- the same operation into the register that is free after the operands
  have hfresh : f.emit (.ofType (.temp d₁.next) f.result) args [] =
      .ok [line.movedTo (.temp d₁.next)] := by
    have hmoved := Overload.emit_movedTo hs hsingle (.ofType (.temp q) f.result) args
      (.temp d₁.next)
    rw [hline] at hmoved
    exact hmoved
  have hemit : e.emit target d = .ok (.ofType (.temp d₁.next) f.result,
      (d₁.taken 1).appended [line.movedTo (.temp d₁.next)]) := by
    have hinto' := (Overload.emitInto_of_single hs hsingle (.ofType (.temp d₁.next) f.result) args
      (d₁.taken 1) _).mpr ⟨_, hfresh, rfl⟩
    rw [Expr.emit_of_overload target hover, Emit.bind_of_ok hargs, Overload.emitFresh,
      Emit.bind_of_ok (Draft.alloc_eq _ d₁), Emit.bind_of_ok hinto']
    rfl
  have hfits := fun r => Operand.ofType_fits (.temp r) hs.result_valid
  have hmove := emitMove_eq (hfits d₁.next) hs.result_valid (hfits q) hs.result_valid
    (by simp [accepts]) ((d₁.taken 1).appended [line.movedTo (.temp d₁.next)])
  refine ⟨hover, hs.single_iff.mp hsingle, _, hD, hpath, args, d₁, is, line, d₁.next, _, hargs,
    his.code, ?_, (Emit.bind_of_ok hemit).trans hmove, his.next, ?_, fun I σ c l hc => ?_⟩
  · rw [Draft.appended_code_toList, his.code, List.map_append, List.append_assoc]
  · simp only [Draft.appended_code_toList, Draft.taken_code, his.code, List.map_append,
      List.append_assoc, List.map_cons, List.map_nil, List.cons_append, List.nil_append]
  · have hapart : c ≠ .register (.temp d₁.next) := by
      intro hr
      have hlt := hc _ hr
      have hle := his.next
      omega
    rw [I.run_append, I.run_append]
    exact I.agree_moved hs.result_valid hplace hmask (I.run σ is) d₁.next hapart l

/-- The premises can be met by a destination that its value reads twice, once under another operation:
the leading lanes of a variable are assigned the sum of its last lanes and the square of the leading
ones. On a lane machine too, both codes leave the same in the variable. -/
theorem direct_agrees_of_own_square :
    let v : Variable := ⟨.float4, some ⟨⟨0, 1⟩, 0⟩⟩
    let e : Expr := .binary .add (.view v "zw") (.binary .mul (.view v "xy") (.view v "xy"))
    let d : Draft := { next := 1 }
    ∃ f d' D plain is js, (view v "xy").direct? e = some f ∧
      (view v "xy").store .pixel e d = .ok ((), d') ∧ d'.code.toList = is.map .instruction ∧
      emitTo .pixel D none e d = .ok ((), plain) ∧ plain.code.toList = js.map .instruction ∧
      is.length = 2 ∧ js.length = 3 ∧ ∀ (m : Machine) (σ : Contents) (l : Lane),
        m.run σ is (.register (.temp 0)) l = m.run σ js (.register (.temp 0)) l := by
  intro v e d
  have hsome : ((view v "xy").direct? e).isSome = true := by decide +kernel
  obtain ⟨f, hf⟩ := Option.isSome_iff_exists.mp hsome
  have htwo : ((view v "xy").store .pixel e d).toOption.map (fun r => r.2.code.toList.length) =
      some 2 := by decide +kernel
  obtain ⟨⟨_, d'⟩, hok, hcode⟩ := Option.map_eq_some_iff.mp htwo
  have hstore : (view v "xy").store .pixel e d = .ok ((), d') := by
    cases hs : (view v "xy").store .pixel e d with
    | error fault =>
      rw [hs] at hok
      cases hok
    | ok r =>
      rw [hs] at hok
      cases hok
      rfl
  obtain ⟨-, -, D, -, -, args, d₁, is, line, r, plain, -, -, hdirect, hplain, -, hmoved, hagree⟩ :=
    store_direct_agrees hf hstore
  have hlength : (is ++ [line]).length = 2 := by
    rw [hdirect] at hcode
    simpa [d] using hcode
  refine ⟨f, d', D, plain, is ++ [line],
    is ++ [line.movedTo (.temp r), moveLine D (.ofType (.temp r) f.result)],
    hf, hstore, hdirect, hplain, hmoved, hlength, ?_, fun m σ l => ?_⟩
  · simpa using hlength
  · rw [← m.run_interpretation, ← m.run_interpretation]
    refine hagree m.interpretation σ _ l fun q hq => ?_
    cases hq
    exact Nat.one_pos

end LValue

end ShaderIL
