import ShaderIL.Kernel.Vocabulary
import ShaderIL.Proofs.Assembler.Write
import ShaderIL.Proofs.Expr.MultiplyAdd

/-!
# The words of kernels

What the forms in which kernels are written cost and yield, and what declaring and performing do in a
unit. An integer of 63 bits is a single without an error (`Literal.error_ofInts`), so the distances and
sizes of a kernel are literals, which have no code.
-/

namespace ShaderIL

/-! ### Integers as singles -/

theorem FloatValue.withinSingle_of_toRat? {v : FloatValue} {q : ℚ} (h : v.toRat? = some q)
    (hq : |q| ≤ 16777215 * 2 ^ (104 : Int)) : v.WithinSingle := by
  cases v with
  | infinity | nan => cases h
  | finite negative m e =>
    have hpos : (0 : ℚ) ≤ m * 2 ^ e := by positivity
    have habs : |q| = m * 2 ^ e := by
      rw [← Option.some.inj h, abs_mul, abs_of_nonneg hpos]
      cases negative <;> simp
    rw [WithinSingle, ← habs]
    exact hq

/-- An integer of 63 bits has words as a single. -/
theorem Host.words_word {n : Int} (hn : n.natAbs < 2 ^ 63) : ∃ ws, (word n).words .float = .ok ws := by
  have hproper : (word n).Proper := by
    change -((2 ^ 64 : Nat) : Int) ≤ 2 * n ∧ 2 * n < (2 ^ 64 : Nat)
    omega
  have hspans : FloatFormat.double.Spans 63 := ⟨by decide, by decide, by decide⟩
  have hnear : |FloatFormat.double.nearest n - n| < 2 ^ 63 :=
    FloatFormat.nearest_near (by decide) hn
  have hbound : |FloatFormat.double.nearest n| ≤ 2 ^ 64 := by
    rw [abs_lt] at hnear
    rw [abs_le]
    omega
  rw [words_ok_iff hproper]
  refine FloatValue.withinSingle_of_toRat? (FloatFormat.decode_ofInt hspans hn) ?_
  calc |((FloatFormat.double.nearest n : Int) : ℚ)|
      = ((|FloatFormat.double.nearest n| : Int) : ℚ) := by rw [Int.cast_abs]
    _ ≤ ((2 ^ 64 : Int) : ℚ) := by exact_mod_cast hbound
    _ ≤ 16777215 * 2 ^ (104 : Int) := by norm_num

namespace Literal

theorem wordsOf_ok {kind : Kind} : ∀ {ks : List Host}, (∀ k ∈ ks, ∃ ws, k.words kind = .ok ws) →
    ∃ all, wordsOf kind ks = .ok all
  | [], _ => ⟨[], rfl⟩
  | k :: ks, h => by
    obtain ⟨ws, hws⟩ := h k List.mem_cons_self
    obtain ⟨all, hall⟩ := wordsOf_ok fun y hy => h y (List.mem_cons_of_mem _ hy)
    refine ⟨ws ++ all, ?_⟩
    rw [wordsOf, hws, hall]
    rfl

theorem error_ofInts {t : ValueType} {ns : List Int} (ht : t.valid = true) (hk : t.kind = .float)
    (hlen : ns.length = t.components) (hn : ∀ n ∈ ns, n.natAbs < 2 ^ 63) :
    (ofValues t (ns.map .word)).error = none ∧ (ofValues t (ns.map .word)).declared = t := by
  obtain ⟨all, hall⟩ : ∃ all, wordsOf t.kind (ns.map .word) = .ok all := by
    refine wordsOf_ok fun k hmem => ?_
    obtain ⟨n, hns, rfl⟩ := List.mem_map.mp hmem
    rw [hk]
    exact Host.words_word (hn n hns)
  simp [ofValues, ht, hlen, hall]

theorem const_eq_ofInts (t : ValueType) (n : Int) :
    const t (.word n) = ofValues t ((List.replicate t.components n).map .word) := by
  rw [const, List.map_replicate]

end Literal

/-! ### Constants of one word -/

/-- A word in all four places. -/
def Quad.replicated (w : UInt32) : Quad := ⟨w, w, w, w⟩

theorem Quad.cycle_replicate {n : Nat} (hn : 0 < n) (w : UInt32) :
    cycle (List.replicate n w) = replicated w := by
  have hword : ∀ i, (List.replicate n w).getD (i % (List.replicate n w).length) 0 = w := by
    intro i
    have hi : i % n < n := Nat.mod_lt i hn
    simp [List.getD_eq_getElem?_getD, hi]
  simp only [cycle, hword, replicated]

namespace Literal

variable {t : ValueType} {h : Host} {w : UInt32}

theorem const_eq_replicated (ht : t.valid = true) (hw : h.words t.kind = .ok [w]) :
    const t h = ⟨t, .replicated w, none⟩ := by
  have hwords : wordsOf t.kind (List.replicate t.components h) =
      .ok (List.replicate t.components w) := by
    rw [wordsOf_replicate hw, List.flatten_replicate_singleton]
  simp [const, ofValues, ht, hwords, Quad.cycle_replicate (ValueType.components_pos ht)]

end Literal

/-! ### Costs -/

theorem Expr.withInt_eq {op : BinaryOp} {x : Expr} {t : ValueType} {n : Int} (hx : x.type = t)
    (ht : t.valid = true) : withInt op x n = .binary op x (.ofInt t n) := by
  rw [withInt, hx, ofArg, Literal.lift_of_valid ht, ofInt]

namespace Expr.Costs

variable {target : Target} {unit : UnitId} {e x y : Expr} {t : ValueType} {k k' : Nat}
  {ms ms' : List Mnemonic} {n : Int}

theorem ofInts {ns : List Int} (ht : t.valid = true) (hk : t.kind = .float)
    (hlen : ns.length = t.components) (hn : ∀ n ∈ ns, n.natAbs < 2 ^ 63) :
    Costs target unit (.ofInts t ns) t 0 [] := by
  obtain ⟨herror, hdeclared⟩ := Literal.error_ofInts ht hk hlen hn
  have hcost : Costs target unit (.ofInts t ns) (Literal.ofValues t (ns.map .word)).declared 0 [] :=
    literal herror (by rw [hdeclared]; exact ht)
  rwa [hdeclared] at hcost

theorem ofInt (ht : t.valid = true) (hk : t.kind = .float) (hn : n.natAbs < 2 ^ 63) :
    Costs target unit (.ofInt t n) t 0 [] := by
  have hall : ∀ m ∈ List.replicate t.components n, m.natAbs < 2 ^ 63 := by
    intro m hm
    rw [List.eq_of_mem_replicate hm]
    exact hn
  have hliteral : Expr.ofInt t n = Expr.ofInts t (List.replicate t.components n) := by
    rw [Expr.ofInt, Expr.ofInts, Literal.const_eq_ofInts]
  rw [hliteral]
  exact ofInts ht hk List.length_replicate hall

theorem withInt {op : BinaryOp} {f : Overload} (hx : Costs target unit x t k ms)
    (hk : t.kind = .float) (hn : n.natAbs < 2 ^ 63) (hf : op.overload? t t = some f) :
    Costs target unit (.withInt op x n) f.result (k + (1 + f.scratch))
      (ms ++ f.body.map Pattern.mnemonic) := by
  have ht : t.valid = true := hx.type_eq ▸ hx.accepted.typed.type_valid
  rw [withInt_eq hx.type_eq ht]
  have hcost := binary hx (ofInt ht hk hn) hf
  rwa [Nat.add_zero, List.append_nil] at hcost

theorem parameter {name : String} (hname : Text.Spells .float1 name) :
    Costs target unit (.field ⟨0, 1, 0, .float1, some name⟩) .float1 0 [] :=
  field rfl ⟨Int.le_refl 0, Int.one_pos, Int.le_refl 0, Int.one_pos⟩ rfl hname

theorem component (r : Nat) (l : Lane) :
    Costs target unit (.component ⟨.float4, some ⟨unit, r⟩⟩ l) .float1 0 [] := by
  have hselect : selectError .float4 ⟨[l]⟩ = none := by
    revert l
    decide
  exact select (var rfl rfl) hselect

theorem spread (r : Nat) (l : Lane) :
    Costs target unit (.spread ⟨.float4, some ⟨unit, r⟩⟩ l) .float4 0 [] := by
  have hselect : selectError .float4 (.broadcast l 4) = none := by
    revert l
    decide
  exact select (var rfl rfl) hselect

theorem texel {i : Input} (hx : Costs target unit x .float1 k ms)
    (hy : Costs target unit y .float1 k' ms') (hi : i.error = none) :
    Costs target unit (.texel i x y) i.type (k + k' + 2)
      (ms ++ ms' ++ [Mnemonic.mov, .mov, .sample i.slot]) := by
  have hover : BinaryOp.merge.overload? .float1 .float1 = some _ := rfl
  have hmerge := binary hx hy hover
  have hcost := sample hmerge hi
  rw [List.append_assoc] at hcost
  exact hcost

end Expr.Costs

/-! ### Operands and lines -/

theorem Operand.picked_lane (r : Nat) (l : Lane) :
    (ofType (.temp r) .float4).picked ⟨[l]⟩ = ⟨.temp r, ⟨[l]⟩, 1⟩ := by
  fin_cases l <;> rfl

namespace Expr.Yields

open Draft (Mark)

variable {target : Target} {unit : UnitId} {t : ValueType} {p : Mark}

theorem ofInt {n : Int} {w : UInt32} (ht : t.valid = true) (hw : (Host.word n).words t.kind = .ok [w]) :
    Yields target unit (.ofInt t n) t p
      (Operand.ofType (.literal (p.literals.number (.replicated w))) t) []
      (p.interned (.replicated w)) := by
  rw [Expr.ofInt, Literal.const_eq_replicated ht hw]
  exact literal rfl ht

theorem component (r : Nat) (l : Lane) :
    Yields target unit (.component ⟨.float4, some ⟨unit, r⟩⟩ l) .float1 p ⟨.temp r, ⟨[l]⟩, 1⟩ [] p := by
  have hselect : selectError .float4 ⟨[l]⟩ = none := by
    revert l
    decide
  rw [← Operand.picked_lane]
  exact select (var rfl rfl) hselect

end Expr.Yields

/-! ### Assignments to variables -/

namespace Assembler.Adds

open Expr

variable {target : Target} {unit : UnitId} {flow : List Block} {e : Expr} {t : ValueType} {k r : Nat}
  {ms : List Mnemonic} {f : Overload} {ts : List ValueType}

theorem set_move (he : Costs target unit e t k ms) (hf : e.overload? = none) :
    Adds target unit flow [.set ⟨t, some ⟨unit, r⟩⟩ e] k (Line.Computes (ms ++ [Mnemonic.mov])) := by
  have ht : t.valid = true := he.type_eq ▸ he.accepted.typed.type_valid
  have hv : Costs target unit (.var ⟨t, some ⟨unit, r⟩⟩) t 0 [] := Costs.var ht rfl
  have htype : (LValue.var ⟨t, some ⟨unit, r⟩⟩).type = t := hv.type_eq
  refine move he hv.accepted rfl ?_ ?_
  · rw [htype]
    simp [LValue.accepts]
  · simp [LValue.direct?, Expr.direct?, hf]

theorem set_write (hf : e.overload? = some f) (hsingle : f.single = true)
    (hall : CostsAll target unit e.children ts k ms) :
    Adds target unit flow [.set ⟨f.result, some ⟨unit, r⟩⟩ e] k fun ls =>
      ∃ (d d₁ : Draft) (args : List Operand) (code : List Line),
        emitAll target e.children d = .ok (args, d₁) ∧ Line.Computes ms code ∧
        ls = code ++ (f.lines (Operand.ofType (.temp r) f.result) args d₁.next).map .instruction := by
  obtain ⟨hsound, -⟩ := overload?_spec hf
  have hv : Costs target unit (.var ⟨f.result, some ⟨unit, r⟩⟩) f.result 0 [] :=
    Costs.var hsound.result_valid rfl
  refine write hf hall hv.accepted rfl hv.type_eq ?_
  simp [LValue.direct?, Expr.direct?, hf, hsingle]

theorem set_write_computes (hf : e.overload? = some f) (hsingle : f.single = true)
    (hall : CostsAll target unit e.children ts k ms) :
    Adds target unit flow [.set ⟨f.result, some ⟨unit, r⟩⟩ e] k
      (Line.Computes (ms ++ f.body.map Pattern.mnemonic)) := by
  obtain ⟨hsound, -⟩ := overload?_spec hf
  have hv : Costs target unit (.var ⟨f.result, some ⟨unit, r⟩⟩) f.result 0 [] :=
    Costs.var hsound.result_valid rfl
  refine write_computes hf hall hv.accepted rfl hv.type_eq ?_
  simp [LValue.direct?, Expr.direct?, hf, hsingle]

theorem set_write_line {args : List Operand} {i : Instruction} (hf : e.overload? = some f)
    (hsingle : f.single = true) (hall : CostsAll target unit e.children ts 0 [])
    (hargs : ∀ d, emitAll target e.children d = .ok (args, d))
    (hline : ∀ n, f.lines (Operand.ofType (.temp r) f.result) args n = [i]) :
    Adds target unit flow [.set ⟨f.result, some ⟨unit, r⟩⟩ e] 0 (· = [.instruction i]) := by
  refine (set_write hf hsingle hall).mono ?_
  rintro ls ⟨d, d₁, args', code, hemit, hcode, rfl⟩
  rw [hargs] at hemit
  cases hemit
  have hnil : code = [] := List.eq_nil_of_length_eq_zero hcode.length
  rw [hline, hnil]
  rfl

end Assembler.Adds

theorem Expr.Accepted.view {unit : UnitId} {v : Variable} {r : Nat} {mask : String} {p : Swizzle}
    (hv : v.declared.valid = true) (hh : v.home = some ⟨unit, r⟩) (hp : v.viewLanes mask = .ok p)
    (hvec : (⟨v.declared.kind, p.count⟩ : ValueType).valid = true) :
    (Expr.view v mask).Accepted unit ∧ (Expr.view v mask).type = ⟨v.declared.kind, p.count⟩ := by
  have hvar : v.type = v.declared := if_pos hv
  have htype : (Expr.view v mask).type = ⟨v.declared.kind, p.count⟩ := by
    simp [type, Variable.viewType, hp, hvar, hv, ValueType.vector_eq hvec]
  have hclean : (Expr.view v mask).errors (some unit) = [] := by
    simp [errors, Variable.errors, Variable.viewError, hv, hh, hp]
  exact ⟨of_children (by simp [children]) hclean (by rw [htype]; exact hvec), htype⟩

/-! ### Lines of assignments -/

theorem moveLine_of_fits {o dst : Operand} {t : ValueType} (ho : o.Fits t) (hdst : dst.Fits t) :
    moveLine dst o = ⟨.mov, dst.destination, [o.alignedTo dst]⟩ := by
  have hwidened : o.widenedTo dst = o := by
    unfold Operand.widenedTo
    rw [ho.components_eq, hdst.components_eq]
    refine if_neg ?_
    simp only [Bool.and_eq_true, beq_iff_eq, decide_eq_true_eq, not_and]
    omega
  rw [moveLine, hwidened]

/-- The line that stores a register in the global buffer, at an offset from a base. -/
def storeLine (base : Nat) (offset : Int64) (r : Nat) : Instruction :=
  ⟨.mov, ⟨.globalFrom (.temp base) (.identity 1) offset, .full⟩, [⟨.temp r, .identity 4, .plain⟩]⟩

theorem moveLine_element (base : Nat) (offset : Int64) (r : Nat) :
    moveLine (elementOperand .float4 (Operand.ofType (.temp base) .uint1) offset)
      (Operand.ofType (.temp r) .float4) = storeLine base offset r := by
  have hvalid : ValueType.float4.valid = true := rfl
  have hfits : (elementOperand .float4 (Operand.ofType (.temp base) .uint1) offset).Fits .float4 :=
    Operand.ofType_fits _ hvalid
  rw [moveLine_of_fits (Operand.ofType_fits _ hvalid) hfits]
  rfl

theorem Expr.Accepted.element {unit : UnitId} (base : Nat) (offset : Int64) :
    (Expr.element .float4 (.var ⟨.uint1, some ⟨unit, base⟩⟩) offset).Accepted unit := by
  have hb : Costs .pixel unit (.var ⟨.uint1, some ⟨unit, base⟩⟩) .uint1 0 [] := Costs.var rfl rfl
  have hclean : (Expr.element .float4 (.var ⟨.uint1, some ⟨unit, base⟩⟩) offset).errors (some unit) =
      [] := by
    have hvar : Variable.errors (some unit) ⟨.uint1, some ⟨unit, base⟩⟩ = [] := hb.accepted.clean
    simp only [errors, hb.type_eq, hvar]
    rfl
  refine of_children (fun x hx => ?_) hclean ?_
  · rw [children, List.mem_singleton] at hx
    rw [hx]
    exact hb.accepted
  · rw [type, hb.type_eq]
    rfl

theorem Assembler.Adds.store {target : Target} {unit : UnitId} {flow : List Block} (base : Nat)
    (offset : Int64) (r : Nat) : Adds target unit flow
      [.assign (some (.element .float4 ⟨some (.var ⟨.uint1, some ⟨unit, base⟩⟩), offset⟩))
        (.var ⟨.float4, some ⟨unit, r⟩⟩)] 0 (· = [.instruction (storeLine base offset r)]) := by
  have he : Expr.Costs target unit (.var ⟨.float4, some ⟨unit, r⟩⟩) .float4 0 [] :=
    Expr.Costs.var rfl rfl
  have hb : Expr.Costs target unit (.var ⟨.uint1, some ⟨unit, base⟩⟩) .uint1 0 [] :=
    Expr.Costs.var rfl rfl
  rw [← moveLine_element]
  exact storeElement he hb (Expr.Accepted.element base offset) (fun _ => rfl) fun _ => rfl

namespace Assembler.Writes

open Expr
open Draft (Mark)

variable {target : Target} {unit : UnitId} {flow : List Block} {e x y z : Expr} {t u v : ValueType}
  {r : Nat} {p p₁ p₂ q : Mark} {o a b c : Operand} {is js ks : List Instruction} {f : Overload}

theorem set_move (he : Yields target unit e t p o is q) (hf : e.overload? = none) :
    Writes target unit flow [.set ⟨t, some ⟨unit, r⟩⟩ e] p
      ((is ++ [(⟨.mov, (Operand.ofType (.temp r) t).destination,
        [o.alignedTo (Operand.ofType (.temp r) t)]⟩ : Instruction)]).map .instruction) q := by
  obtain ⟨k, ms, hcosts⟩ := he.costs
  have ht : t.valid = true := hcosts.type_eq ▸ hcosts.accepted.typed.type_valid
  have hv : Costs target unit (.var ⟨t, some ⟨unit, r⟩⟩) t 0 [] := Costs.var ht rfl
  have htype : (LValue.var ⟨t, some ⟨unit, r⟩⟩).type = t := hv.type_eq
  rw [← moveLine_of_fits he.fits (Operand.ofType_fits _ ht)]
  refine move he hv.accepted rfl ?_ ?_
  · rw [htype]
    simp [LValue.accepts]
  · simp [LValue.direct?, Expr.direct?, hf]

theorem set_lane {mask : String} {l : Lane}
    (hmask : (⟨.float4, some ⟨unit, r⟩⟩ : Variable).viewLanes mask = .ok ⟨[l]⟩)
    (he : Yields target unit e .float1 p o is q) (hf : e.overload? = none) :
    Writes target unit flow [.assign (some (.view ⟨.float4, some ⟨unit, r⟩⟩ mask)) e] p
      ((is ++ [(⟨.mov, ⟨.temp r, .ofSwizzle ⟨[l]⟩⟩,
        [o.alignedTo ⟨.temp r, ⟨[l]⟩, 1⟩]⟩ : Instruction)]).map .instruction) q := by
  obtain ⟨hview, htype⟩ := Accepted.view rfl rfl hmask rfl
  have hfits : (⟨.temp r, ⟨[l]⟩, 1⟩ : Operand).Fits .float1 := ⟨rfl, rfl⟩
  have hline : moveLine ⟨.temp r, ⟨[l]⟩, 1⟩ o =
      ⟨.mov, ⟨.temp r, .ofSwizzle ⟨[l]⟩⟩, [o.alignedTo ⟨.temp r, ⟨[l]⟩, 1⟩]⟩ :=
    moveLine_of_fits he.fits hfits
  rw [← hline]
  refine move he hview ?_ ?_ ?_
  · simp only [LValue.operand?, hmask, Operand.picked_lane]
  · have hdst : (LValue.view ⟨.float4, some ⟨unit, r⟩⟩ mask).type = .float1 := htype
    rw [hdst]
    rfl
  · simp [LValue.direct?, hmask, Expr.direct?, hf]

theorem set_write {args : List Operand} (hf : e.overload? = some f) (hsingle : f.single = true)
    (hall : YieldsAll target unit e.children p args is q) :
    Writes target unit flow [.set ⟨f.result, some ⟨unit, r⟩⟩ e] p
      ((is ++ f.lines (Operand.ofType (.temp r) f.result) args q.next).map .instruction) q := by
  obtain ⟨hsound, -⟩ := overload?_spec hf
  have hv : Costs target unit (.var ⟨f.result, some ⟨unit, r⟩⟩) f.result 0 [] :=
    Costs.var hsound.result_valid rfl
  refine write hf hall hv.accepted rfl hv.type_eq ?_
  simp [LValue.direct?, Expr.direct?, hf, hsingle]

theorem set_unary {op : UnaryOp} (hx : Yields target unit x t p a is q)
    (hf : op.overload? t = some f) (hsingle : f.single = true) :
    Writes target unit flow [.set ⟨f.result, some ⟨unit, r⟩⟩ (.unary op x)] p
      ((is ++ f.lines (Operand.ofType (.temp r) f.result) [a] q.next).map .instruction) q :=
  set_write (by rw [overload?, hx.type_eq, hf]) hsingle (.one hx)

theorem set_binary {op : BinaryOp} (hx : Yields target unit x t p a is p₁)
    (hy : Yields target unit y u p₁ b js q) (hf : op.overload? t u = some f)
    (hsingle : f.single = true) :
    Writes target unit flow [.set ⟨f.result, some ⟨unit, r⟩⟩ (.binary op x y)] p
      ((is ++ js ++ f.lines (Operand.ofType (.temp r) f.result) [a, b] q.next).map .instruction) q :=
  set_write (by rw [overload?, hx.type_eq, hy.type_eq, hf]) hsingle (.two hx hy)

theorem set_ternary {op : TernaryOp} (hx : Yields target unit x t p a is p₁)
    (hy : Yields target unit y u p₁ b js p₂) (hz : Yields target unit z v p₂ c ks q)
    (hf : op.overload? t u v = some f) (hsingle : f.single = true) :
    Writes target unit flow [.set ⟨f.result, some ⟨unit, r⟩⟩ (.ternary op x y z)] p
      ((is ++ js ++ ks ++ f.lines (Operand.ofType (.temp r) f.result) [a, b, c] q.next).map
        .instruction) q := by
  have hall : YieldsAll target unit [x, y, z] p [a, b, c] (is ++ (js ++ ks)) q := .cons hx (.two hy hz)
  rw [← List.append_assoc] at hall
  exact set_write (by rw [overload?, hx.type_eq, hy.type_eq, hz.type_eq, hf]) hsingle hall

theorem store (base : Nat) (offset : Int64) (r : Nat) : Writes target unit flow
    [.assign (some (.element .float4 ⟨some (.var ⟨.uint1, some ⟨unit, base⟩⟩), offset⟩))
      (.var ⟨.float4, some ⟨unit, r⟩⟩)] p [.instruction (storeLine base offset r)] p := by
  have he : Yields target unit (.var ⟨.float4, some ⟨unit, r⟩⟩) .float4 p
      (Operand.ofType (.temp r) .float4) [] p := Yields.var rfl rfl
  have hb : Yields target unit (.var ⟨.uint1, some ⟨unit, base⟩⟩) .uint1 p
      (Operand.ofType (.temp base) .uint1) [] p := Yields.var rfl rfl
  have hdst : (LValue.element .float4 ⟨some (.var ⟨.uint1, some ⟨unit, base⟩⟩), offset⟩).type =
      .float4 := type_element (Accepted.element base offset).typed.type_valid
  have hacc : LValue.accepts (LValue.element .float4
      ⟨some (.var ⟨.uint1, some ⟨unit, base⟩⟩), offset⟩).type
      (Expr.var ⟨.float4, some ⟨unit, r⟩⟩).type = true := by
    rw [he.type_eq, hdst]
    rfl
  have hv : Costs target unit (.var ⟨.float4, some ⟨unit, r⟩⟩) .float4 0 [] := Costs.var rfl rfl
  have hwrites : Writes target unit flow _ p _ p := of_adds hv.accepted (Accepted.element base offset)
    hacc (Adds.store base offset r) fun h hp => h.gets_element he hb hp
  rw [moveLine_element] at hwrites
  exact hwrites

end Assembler.Writes

/-! ### Building -/

theorem Draft.taken_taken (d : Draft) (m n : Nat) : (d.taken m).taken n = d.taken (m + n) := by
  simp only [taken, Nat.add_assoc]

namespace Build

variable {s s' : Assembler} {t : ValueType}

/-- The registers of a unit from `start` on as variables of a type. -/
def variablesFrom (unit : UnitId) (t : ValueType) (start n : Nat) : List Variable :=
  (List.range n).map fun i => ⟨t, some ⟨unit, start + i⟩⟩

theorem variablesFrom_succ (unit : UnitId) (t : ValueType) (start n : Nat) :
    variablesFrom unit t start (n + 1) =
      ⟨t, some ⟨unit, start⟩⟩ :: variablesFrom unit t (start + 1) n := by
  rw [variablesFrom, List.range_succ_eq_map, List.map_cons, List.map_map, variablesFrom]
  refine congrArg₂ _ rfl (List.map_congr_left fun i _ => ?_)
  have hi : start + (i + 1) = start + 1 + i := by omega
  simp only [Function.comp_apply, Nat.succ_eq_add_one, hi]

theorem bind_of_ok {α β : Type} {x : Build α} {f : α → Build β} {a : α} (h : x s = .ok (a, s')) :
    (x >>= f) s = f a s' := by
  change (x s >>= fun r => f r.1 r.2) = _
  rw [h]
  rfl

theorem declare_ok (ht : t.valid = true) (hphase : s.phase = .building) (hreport : s.report = none) :
    declare t s = .ok (⟨t, some ⟨s.unit, s.draft.next⟩⟩, { s with draft := s.draft.taken 1 }) := by
  change Except.ok (s.declare t) = _
  simp [Assembler.declare, ht, hphase, hreport, Draft.taken]

theorem declare_taken (ht : t.valid = true) (hphase : s.phase = .building) (hreport : s.report = none)
    (i : Nat) : declare t { s with draft := s.draft.taken i } =
      .ok (⟨t, some ⟨s.unit, s.draft.next + i⟩⟩, { s with draft := s.draft.taken (i + 1) }) := by
  have hok : declare t { s with draft := s.draft.taken i } =
      .ok (⟨t, some ⟨s.unit, s.draft.next + i⟩⟩, { s with draft := (s.draft.taken i).taken 1 }) :=
    declare_ok ht hphase hreport
  rw [hok, Draft.taken_taken]

theorem declareMany_ok (ht : t.valid = true) (hphase : s.phase = .building)
    (hreport : s.report = none) (n : Nat) : declareMany t n s =
      .ok (variablesFrom s.unit t s.draft.next n, { s with draft := s.draft.taken n }) := by
  induction n generalizing s with
  | zero => rfl
  | succ n ih =>
    have hrest : declareMany t n { s with draft := s.draft.taken 1 } =
        .ok (variablesFrom s.unit t (s.draft.next + 1) n,
          { s with draft := (s.draft.taken 1).taken n }) := ih hphase hreport
    rw [declareMany, bind_of_ok (declare_ok ht hphase hreport), bind_of_ok hrest, variablesFrom_succ,
      Draft.taken_taken, Nat.add_comm 1 n]
    rfl

theorem perform_ok {sts : List Statement} {k : Nat} {ls : List Line} (h : s.Makes sts k ls s') :
    perform sts s = .ok ((), s') := by
  obtain ⟨os, hruns⟩ := h.runs
  rw [perform, hruns]
  rfl

end Build

end ShaderIL
