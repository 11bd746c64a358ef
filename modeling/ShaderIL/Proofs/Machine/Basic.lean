import Mathlib.Data.List.GetD
import ShaderIL.Proofs.Assembler.LiteralTable
import ShaderIL.Proofs.Lane.Select

/-!
# The lane machine

What instructions do, read lane by lane. `Contents` gives the four words of every cell: a register,
or an element of the global buffer. A source operand supplies a word at every position, the lane its
swizzle names there with the last selector repeated, negated where its modifier says so. An
instruction takes all its sources, and lane `l` of its destination gets what the mnemonic makes of
them at position `l` if the write mask has `l`; nothing else changes.

A `Machine` is a choice of functions for the mnemonics. They are arbitrary: most mnemonics apply a
function to the words at a position, the double-precision ones to the pairs of words at positions
`2 * k` and `2 * k + 1`, conversions to and from doubles work on the first pair or word, and dot
products and samples take the leading positions. Only `mov` is fixed, it hands words on.

The lemmas say what a run changes (`run_apart`) and when an operand holds a value (`Holds`). -/

namespace ShaderIL

/-- What a mnemonic looks at. -/
inductive Mnemonic.Shape where
  /-- The word at a position, unchanged. -/
  | move
  /-- The words at a position. -/
  | words
  /-- The pairs of words at a position and its neighbour. -/
  | pairs
  /-- The first pair, giving one word. -/
  | narrows
  /-- The first word, giving a pair. -/
  | widens
  /-- The leading positions. -/
  | gathers (n : Nat)
  deriving DecidableEq

/-- What each mnemonic looks at. -/
def Mnemonic.shape : Mnemonic → Shape
  | mov => .move
  | dadd | dmul | ddiv | dmin | dmax | dmad | deq | dne | dlt | dge => .pairs
  | d2f | dtoi | dtou => .narrows
  | f2d | itod | utod => .widens
  | dot2 | sample _ => .gathers 2
  | dot4 => .gathers 4
  | _ => .words

/-- The functions an instruction set is made of. -/
structure Machine where
  word : Mnemonic → List UInt32 → UInt32
  pair : Mnemonic → List (UInt32 × UInt32) → UInt32 × UInt32
  narrow : Mnemonic → UInt32 × UInt32 → UInt32
  widen : Mnemonic → UInt32 → UInt32 × UInt32
  gather : Mnemonic → List (List UInt32) → Nat → UInt32
  /-- The negate modifier. -/
  negate : UInt32 → UInt32
  /-- The address of an element at an offset from a base. -/
  locate : UInt32 → Int64 → Int64

/-- Four words by lane, of a register or of an element of the global buffer. -/
inductive Cell where
  | register (place : Place)
  | memory (address : Int64)
  deriving DecidableEq

/-- The contents of all cells. -/
abbrev Contents := Cell → Lane → UInt32

/-- The low word of a pair at even positions, the high word at odd ones. -/
def half (p : Nat) (w : UInt32 × UInt32) : UInt32 := if p % 2 = 0 then w.1 else w.2

/-- The position is negated by a modifier of a source with that many lanes. -/
def Sign.hits (count p : Nat) : Sign → Bool
  | plain => false
  | negated => true
  | highNegated => p == 1 || (p == 3 && count == 4)

/-- The lane a swizzle names at a position; the last selector is repeated. -/
def Swizzle.laneAt (s : Swizzle) (p : Nat) : Lane := s.lanes.getD (min p (s.count - 1)) .x

namespace Machine

variable (m : Machine)

/-- What a mnemonic makes at a position of words given by position. -/
def apply (n : Mnemonic) (xs : List (Nat → UInt32)) (p : Nat) : UInt32 :=
  let first := xs.getD 0 fun _ => 0
  match n.shape with
  | .move => first p
  | .words => m.word n (xs.map fun x => x p)
  | .pairs => half p (m.pair n (xs.map fun x => (x (p / 2 * 2), x (p / 2 * 2 + 1))))
  | .narrows => m.narrow n (first 0, first 1)
  | .widens => half p (m.widen n (first 0))
  | .gathers k => m.gather n (xs.map fun x => (List.range k).map x) p

/-- The cell of a place. An element behind a base is found with the first lane of the base. -/
def cell (σ : Contents) : Place → Cell
  | .globalAt offset => .memory offset
  | .globalFrom base lanes offset =>
    .memory (m.locate (σ (cell σ base) (lanes.laneAt 0)) offset)
  | p => .register p

/-- The word a source supplies at a position. -/
def supply (σ : Contents) (s : SourceOperand) (p : Nat) : UInt32 :=
  let w := σ (m.cell σ s.place) (s.lanes.laneAt p)
  if s.sign.hits s.lanes.count p then m.negate w else w

/-- One instruction: all sources are read, then the lanes of the mask are written. -/
def step (σ : Contents) (i : Instruction) : Contents := fun c l =>
  if c = m.cell σ i.dst.place ∧ i.dst.mask.has l = true then
    m.apply i.mnemonic (i.srcs.map (m.supply σ)) l.val
  else σ c l

/-- Instructions one after the other. -/
def run (σ : Contents) (is : List Instruction) : Contents := is.foldl m.step σ

end Machine

/-- The literals that are declared in order are in the literal registers. -/
def Contents.Loaded (σ : Contents) (order : List Quad) : Prop :=
  ∀ n bits, order[n]? = some bits →
    ∀ l : Lane, σ (.register (.literal n)) l = bits.toList.getD l.val 0

/-- Each pattern of a literal table is in the register of its number. -/
def Contents.Numbered (σ : Contents) (table : LiteralTable) : Prop :=
  ∀ n bits, table.numbers.lookup bits = some n →
    ∀ l : Lane, σ (.register (.literal n)) l = bits.toList.getD l.val 0

theorem Contents.Loaded.numbered {σ : Contents} {table : LiteralTable} (h : σ.Loaded table.order)
    (ht : table.Inverse) : σ.Numbered table :=
  fun n bits hn => h n bits ((ht bits n).mp hn)

/-! ### Steps and runs -/

namespace Machine

variable {m : Machine} {σ σ' : Contents}

@[simp] theorem run_nil (σ : Contents) : m.run σ [] = σ := rfl

@[simp] theorem run_cons (σ : Contents) (i : Instruction) (is : List Instruction) :
    m.run σ (i :: is) = m.run (m.step σ i) is := rfl

theorem run_append (σ : Contents) (is js : List Instruction) :
    m.run σ (is ++ js) = m.run (m.run σ is) js :=
  List.foldl_append ..

@[simp] theorem cell_temp (σ : Contents) (r : Nat) : m.cell σ (.temp r) = .register (.temp r) := rfl

/-- A lane that no instruction writes keeps its word; the destinations are temporaries. -/
theorem run_apart {c : Cell} {l : Lane} : ∀ {is : List Instruction} {σ : Contents},
    (∀ i ∈ is, ∃ r, i.dst.place = .temp r ∧
      (c ≠ .register (.temp r) ∨ i.dst.mask.has l = false)) → m.run σ is c l = σ c l
  | [], _, _ => rfl
  | i :: is, σ, h => by
    obtain ⟨r, hr, hc⟩ := h i (by simp)
    have hstep : m.step σ i c l = σ c l := by
      unfold step
      rw [hr, cell_temp, if_neg]
      rintro ⟨rfl, hl⟩
      rcases hc with hc | hc
      · exact hc rfl
      · simp [hl] at hc
    rw [run_cons, run_apart fun j hj => h j (by simp [hj]), hstep]

end Machine

/-! ### Stores that differ in fresh temporaries only -/

/-- The stores agree but for temporaries from `n` on. -/
def Contents.Agree (n : Nat) (σ σ' : Contents) : Prop :=
  ∀ c l, (∀ r, c = .register (.temp r) → r < n) → σ' c l = σ c l

namespace Contents.Agree

variable {n : Nat} {σ σ' σ'' : Contents}

theorem trans (h : Agree n σ σ') (h' : Agree n σ' σ'') : Agree n σ σ'' :=
  fun c l hc => (h' c l hc).trans (h c l hc)

theorem numbered {table : LiteralTable} (h : Agree n σ σ') (hσ : σ.Numbered table) :
    σ'.Numbered table := by
  intro i bits hi l
  rw [h _ l fun r hr => by cases hr]
  exact hσ i bits hi l

theorem of_run {m : Machine} {is : List Instruction}
    (h : ∀ i ∈ is, ∃ r, i.dst.place = .temp r ∧ n ≤ r) (σ : Contents) : Agree n σ (m.run σ is) := by
  intro c l hc
  refine Machine.run_apart fun i hi => ?_
  obtain ⟨r, hr, hle⟩ := h i hi
  refine ⟨r, hr, .inl ?_⟩
  rintro rfl
  exact absurd (hc r rfl) (by omega)

end Contents.Agree

/-- A place that neither moves nor changes when temporaries from `n` on are written. -/
def Place.Settled (n : Nat) : Place → Prop
  | .temp r => r < n
  | .globalAt _ | .globalFrom _ _ _ => False
  | _ => True

namespace Place.Settled

variable {n k : Nat} {p : Place}

theorem mono (h : p.Settled n) (hk : n ≤ k) : p.Settled k := by
  cases p with
  | temp r => exact Nat.lt_of_lt_of_le h hk
  | globalAt | globalFrom => exact h
  | literal | constant | threadId | windowPosition | named => trivial

theorem cell_eq (h : p.Settled n) (m : Machine) (σ : Contents) : m.cell σ p = .register p := by
  cases p with
  | globalAt | globalFrom => exact h.elim
  | temp | literal | constant | threadId | windowPosition | named => rfl

theorem agree {σ σ' : Contents} (h : p.Settled n) (hσ : Contents.Agree n σ σ') (l : Lane) :
    σ' (.register p) l = σ (.register p) l := by
  refine hσ _ _ fun r hr => ?_
  cases hr
  exact h

end Place.Settled

/-! ### Operands that hold a value -/

/-- A value by component and word of the component. -/
abbrev Value := Nat → Nat → UInt32

/-- The lanes of the operand are the words of a value of a type. -/
def Contents.Holds (σ : Contents) (o : Operand) (t : ValueType) (x : Value) : Prop :=
  ∀ k < t.components, ∀ j < t.laneWidth,
    σ (.register o.place) (o.lanes.lanes.getD (k * t.laneWidth + j) .x) = x k j

theorem Swizzle.laneAt_of_lt {s : Swizzle} {p : Nat} (hp : p < s.count) :
    s.laneAt p = s.lanes.getD p .x := by
  rw [laneAt, Nat.min_eq_left (by omega)]

theorem Swizzle.laneAt_single {s : Swizzle} (hs : s.count = 1) (p : Nat) :
    s.laneAt p = s.lanes.getD 0 .x := by
  rw [laneAt, hs, Nat.sub_self, Nat.min_zero]

namespace Contents.Holds

variable {m : Machine} {σ σ' : Contents} {o : Operand} {t : ValueType} {x y : Value} {n : Nat}

theorem congr (h : σ.Holds o t x)
    (hxy : ∀ k < t.components, ∀ j < t.laneWidth, x k j = y k j) : σ.Holds o t y :=
  fun k hk j hj => (h k hk j hj).trans (hxy k hk j hj)

theorem agree (h : σ.Holds o t x) (hp : o.place.Settled n) (hσ : Contents.Agree n σ σ') :
    σ'.Holds o t x := by
  intro k hk j hj
  rw [hp.agree hσ]
  exact h k hk j hj

theorem lane (h : σ.Holds o t x) {p : Nat} (hp : p < t.lanes) :
    σ (.register o.place) (o.lanes.lanes.getD p .x) = x (p / t.laneWidth) (p % t.laneWidth) := by
  have hlane := h (p / t.laneWidth) (ValueType.component_lt hp) (p % t.laneWidth)
    (Nat.mod_lt _ t.laneWidth_pos)
  rwa [Nat.mul_comm, Nat.div_add_mod] at hlane

theorem picked (h : σ.Holds o t x) (ho : o.Fits t) {p : Swizzle} (hp : p.maxLane < t.components) :
    σ.Holds (o.picked p) ⟨t.kind, p.count⟩ fun k => x (p.lanes.getD k .x).val := by
  intro k hk j hj
  have hw : (⟨t.kind, p.count⟩ : ValueType).laneWidth = t.laneWidth := rfl
  simp only at hk
  rw [hw] at hj ⊢
  have hlt : k * t.laneWidth + j < p.count * o.width := by
    rw [ho.width]
    exact ValueType.lane_lt (t := ⟨t.kind, p.count⟩) hk hj
  have hmem : p.lanes.getD k .x ∈ p.lanes := by
    rw [List.getD_eq_getElem?_getD, List.getElem?_eq_getElem hk]
    exact List.getElem_mem hk
  rw [Operand.picked_place, Operand.getD_picked (by rw [ho.width]; exact t.laneWidth_pos) hlt,
    ho.width, Operand.mul_add_div_of_lt hj, Operand.mul_add_mod_of_lt hj]
  exact h _ (Nat.lt_of_le_of_lt (Swizzle.le_maxLane hmem) hp) j hj

end Contents.Holds

/-- The operand has the shape of a type, holds a value of it, and stays what it is when temporaries
from `n` on are written. -/
structure Contents.Carries (σ : Contents) (n : Nat) (o : Operand) (t : ValueType) (x : Value) :
    Prop where
  fits : o.Fits t
  holds : σ.Holds o t x
  settled : o.place.Settled n

namespace Machine

variable (m : Machine)

/-- A component with every word negated. -/
def negated (c : Nat → UInt32) : Nat → UInt32 := fun j => m.negate (c j)

/-- A double with its high word negated. -/
def highNegated (c : Nat → UInt32) : Nat → UInt32 := fun j => if j = 1 then m.negate (c j) else c j

/-- A component under a modifier. -/
def signed (c : Nat → UInt32) : Sign → Nat → UInt32
  | .plain => c
  | .negated => m.negated c
  | .highNegated => m.highNegated c

/-- The source supplies `c` components of `w` words of a value. -/
def Supplies (σ : Contents) (c w : Nat) (s : SourceOperand) (x : Value) : Prop :=
  ∀ p < c * w, m.supply σ s p = x (p / w) (p % w)

end Machine

namespace Contents.Carries

variable {m : Machine} {σ σ' : Contents} {n k : Nat} {o : Operand} {t : ValueType} {x y : Value}

theorem agree (h : σ.Carries n o t x) (hσ : Contents.Agree n σ σ') : σ'.Carries n o t x :=
  ⟨h.fits, h.holds.agree h.settled hσ, h.settled⟩

theorem mono (h : σ.Carries n o t x) (hk : n ≤ k) : σ.Carries k o t x :=
  ⟨h.fits, h.holds, h.settled.mono hk⟩

theorem picked (h : σ.Carries n o t x) {p : Swizzle} (hp : p.maxLane < t.components) :
    σ.Carries n (o.picked p) ⟨t.kind, p.count⟩ fun k => x (p.lanes.getD k .x).val :=
  ⟨Operand.picked_fits h.fits, h.holds.picked h.fits hp, h.settled⟩

/-- What an operand supplies as a source: the words of its components, under the modifier. -/
theorem supplies_signed (h : σ.Carries n o t x) (ht : t.valid = true) (sign : Sign)
    (hsign : sign = .highNegated → t.laneWidth = 2) :
    m.Supplies σ t.components t.laneWidth (o.signed sign) fun k => m.signed (x k) sign := by
  intro p hp
  rw [← ValueType.lanes] at hp
  have hcount : p < o.lanes.count := by rw [h.fits.count]; exact hp
  simp only [Machine.supply, Operand.signed, h.settled.cell_eq, Swizzle.laneAt_of_lt hcount,
    h.holds.lane hp, h.fits.count]
  cases sign with
  | plain => rfl
  | negated => rfl
  | highNegated =>
    have hw := hsign rfl
    have h4 := ValueType.lanes_le_four ht
    have hlanes : t.lanes = t.components * 2 := by rw [ValueType.lanes, hw]
    have hhits : Sign.highNegated.hits t.lanes p = true ↔ p % 2 = 1 := by
      simp only [Sign.hits, Bool.or_eq_true, beq_iff_eq, Bool.and_eq_true]
      omega
    simp only [Machine.signed, Machine.highNegated, hw, hhits]

theorem supplies (h : σ.Carries n o t x) (ht : t.valid = true) :
    m.Supplies σ t.components t.laneWidth o.source x :=
  h.supplies_signed ht .plain (by simp)

end Contents.Carries

/-- A component taken alone supplies its words, the last one repeated. -/
theorem Contents.Carries.supply_component {m : Machine} {σ : Contents} {n : Nat} {o : Operand}
    {t : ValueType} {x : Value} (h : σ.Carries n o t x) (ht : t.valid = true) {i : Nat}
    (hi : i < t.components) (p : Nat) :
    m.supply σ (o.picked ⟨[.ofIndex i]⟩).source p = x i (min p (t.laneWidth - 1)) := by
  obtain ⟨hk, hc⟩ := t.valid_iff.mp ht
  have hval : (Lane.ofIndex i).val = i := Lane.val_ofIndex (by omega)
  have hp := h.picked (Swizzle.maxLane_single hi (by omega))
  have hw := t.laneWidth_pos
  have hcount : (o.picked ⟨[.ofIndex i]⟩).lanes.count = t.laneWidth := by
    rw [hp.fits.count, ValueType.lanes]
    exact Nat.one_mul _
  have hlane := hp.holds 0 Nat.zero_lt_one (min p (t.laneWidth - 1))
    (Nat.lt_of_le_of_lt (Nat.min_le_right _ _) (Nat.sub_lt hw Nat.zero_lt_one))
  simp only [Nat.zero_mul, Nat.zero_add, List.getD_cons_zero, hval] at hlane
  simp only [Machine.supply, Operand.source, Operand.signed, hp.settled.cell_eq, Swizzle.laneAt,
    hcount, hlane, Sign.hits, Bool.false_eq_true, if_false]

/-- Operands that carry values of types, one by one. -/
inductive Contents.CarriesAll (σ : Contents) (n : Nat) :
    List Operand → List ValueType → List Value → Prop
  | nil : CarriesAll σ n [] [] []
  | cons {o os t ts x xs} (h : σ.Carries n o t x) (hs : CarriesAll σ n os ts xs) :
    CarriesAll σ n (o :: os) (t :: ts) (x :: xs)

theorem Contents.CarriesAll.get {σ : Contents} {n : Nat} : ∀ {os : List Operand}
    {ts : List ValueType} {xs : List Value}, σ.CarriesAll n os ts xs → ∀ {i : Nat} {t : ValueType},
      ts[i]? = some t → ∃ o x, os[i]? = some o ∧ xs[i]? = some x ∧ σ.Carries n o t x
  | _, _, _, .cons h _, 0, _, rfl => ⟨_, _, rfl, rfl, h⟩
  | _, _, _, .cons _ hs, i + 1, _, ht => by
    simpa using hs.get (by simpa using ht)

theorem Contents.CarriesAll.fits {σ : Contents} {n : Nat} : ∀ {os : List Operand}
    {ts : List ValueType} {xs : List Value}, σ.CarriesAll n os ts xs →
      List.Forall₂ Operand.Fits os ts
  | _, _, _, .nil => .nil
  | _, _, _, .cons h hs => .cons h.fits hs.fits

theorem Contents.CarriesAll.forall₂ {σ : Contents} {n : Nat} {R : Operand → Value → Prop} :
    ∀ {os : List Operand} {ts : List ValueType} {xs : List Value}, σ.CarriesAll n os ts xs →
      (∀ o x, ∀ t ∈ ts, σ.Carries n o t x → R o x) → List.Forall₂ R os xs
  | _, _, _, .nil, _ => .nil
  | _, _, _, .cons h hs, hR =>
    .cons (hR _ _ _ (by simp) h) (hs.forall₂ fun o x t ht => hR o x t (by simp [ht]))

theorem Contents.CarriesAll.agree {σ σ' : Contents} {n : Nat} (hσ : Contents.Agree n σ σ') :
    ∀ {os : List Operand} {ts : List ValueType} {xs : List Value}, σ.CarriesAll n os ts xs →
      σ'.CarriesAll n os ts xs
  | _, _, _, .nil => .nil
  | _, _, _, .cons h hs => .cons (h.agree hσ) (hs.agree hσ)

/-- A source in a settled place supplies the same from stores that agree. -/
theorem Machine.supply_agree {m : Machine} {σ σ' : Contents} {n : Nat} {s : SourceOperand}
    (hs : s.place.Settled n) (hσ : Contents.Agree n σ σ') : m.supply σ' s = m.supply σ s := by
  funext p
  simp only [supply, hs.cell_eq, hs.agree hσ]

/-- A line that writes a temporary makes it hold what the mnemonic gives at its lanes. -/
theorem Machine.step_holds {m : Machine} {σ : Contents} {D : Operand} {t : ValueType} {r : Nat}
    {n : Mnemonic} {srcs : List SourceOperand} {y : Value} (hdst : D.Fits t)
    (hplace : D.place = .temp r)
    (h : ∀ k < t.components, ∀ j < t.laneWidth,
      m.apply n (srcs.map (m.supply σ)) (D.lanes.lanes.getD (k * t.laneWidth + j) .x).val =
        y k j) : (m.step σ ⟨n, D.destination, srcs⟩).Holds D t y := by
  intro k hk j hj
  have hlt : k * t.laneWidth + j < D.lanes.lanes.length := by
    have hcount := hdst.count
    unfold Swizzle.count at hcount
    rw [hcount]
    exact ValueType.lane_lt hk hj
  have hmask : D.mask.has (D.lanes.lanes.getD (k * t.laneWidth + j) .x) = true := by
    rw [Operand.has_mask, List.getD_eq_getElem?_getD, List.getElem?_eq_getElem hlt]
    exact List.getElem_mem hlt
  rw [step, if_pos ⟨by simp [Operand.destination, hplace], hmask⟩]
  exact h k hk j hj

/-! ### Lanes moved to where a destination is written -/

theorem getElem?_foldl_set {l : Lane} {k : Nat} : ∀ (zs : List (Lane × Lane)) (b : List Lane),
    (∀ z ∈ zs, z.1.val ≠ k) → b[k]? = some l →
      (zs.foldl (fun b z => b.set z.1.val z.2) b)[k]? = some l
  | [], _, _, h => h
  | z :: zs, b, hz, h => by
    refine getElem?_foldl_set zs _ (fun y hy => hz y (by simp [hy])) ?_
    rw [List.getElem?_set_ne (hz z (by simp))]
    exact h

theorem getElem?_foldl_set_of_mem {z : Lane × Lane} : ∀ (zs : List (Lane × Lane)) (b : List Lane),
    b.length = 4 → (zs.map Prod.fst).Nodup → z ∈ zs →
      (zs.foldl (fun b z => b.set z.1.val z.2) b)[z.1.val]? = some z.2
  | [], _, _, _, h => absurd h List.not_mem_nil
  | y :: zs, b, hb, hnodup, h => by
    rw [List.map_cons, List.nodup_cons] at hnodup
    rcases List.mem_cons.mp h with rfl | h
    · refine getElem?_foldl_set zs _ (fun w hw heq => hnodup.1 ?_) ?_
      · rw [← Fin.ext heq]
        exact List.mem_map_of_mem hw
      · rw [List.getElem?_set_self (by omega)]
    · exact getElem?_foldl_set_of_mem zs _ (by simpa using hb) hnodup.2 h

/-- The selectors moved to a destination stand where its lanes are. -/
theorem Operand.laneAt_alignedLanes {o dst : Operand} (hcount : o.lanes.count = dst.lanes.count)
    (h4 : dst.lanes.count ≤ 4) (hnodup : dst.lanes.lanes.Nodup) {k : Nat}
    (hk : k < o.lanes.count) :
    (o.alignedLanes dst).laneAt (dst.lanes.lanes.getD k .x).val = o.lanes.lanes.getD k .x := by
  unfold alignedLanes
  split_ifs with hid
  · rw [Bool.or_eq_true, Bool.and_eq_true, beq_iff_eq, beq_iff_eq] at hid
    rcases hid with hid | ⟨-, hone⟩
    · rw [Swizzle.getD_of_isIdentity hid h4 (by omega), Swizzle.laneAt_of_lt hk]
    · rw [Swizzle.laneAt_single hone]
      congr 1
      omega
  · have hko : k < o.lanes.lanes.length := hk
    have hkd : k < dst.lanes.lanes.length := by rw [← Swizzle.count, ← hcount]; exact hk
    have hzip : (dst.lanes.lanes[k], o.lanes.lanes[k]) ∈ dst.lanes.lanes.zip o.lanes.lanes := by
      have hkz : k < (dst.lanes.lanes.zip o.lanes.lanes).length := by simp; omega
      have hmem := List.getElem_mem hkz
      rwa [List.getElem_zip] at hmem
    have hfst : (dst.lanes.lanes.zip o.lanes.lanes).map Prod.fst = dst.lanes.lanes :=
      List.map_fst_zip (by unfold Swizzle.count at hcount; omega)
    have hset := getElem?_foldl_set_of_mem (dst.lanes.lanes.zip o.lanes.lanes)
      (List.replicate 4 (o.lanes.lanes.getD 0 .x)) (by simp) (by rw [hfst]; exact hnodup) hzip
    have hlen : ∀ (zs : List (Lane × Lane)) (b : List Lane),
        (zs.foldl (fun b z => b.set z.1.val z.2) b).length = b.length := by
      intro zs
      induction zs with
      | nil => exact fun _ => rfl
      | cons z zs ih => exact fun b => by rw [List.foldl_cons, ih, List.length_set]
    rw [Swizzle.laneAt_of_lt (by simp only [Swizzle.count, hlen, List.length_replicate]; omega)]
    rw [List.getD_eq_getElem _ _ hkd, List.getD_eq_getElem _ _ hko]
    simp only at hset
    rw [List.getD_eq_getElem?_getD, hset, Option.getD_some]

theorem Contents.Carries.supply_aligned {m : Machine} {σ : Contents} {n : Nat} {o dst : Operand}
    {t : ValueType} {x : Value} (h : σ.Carries n o t x) (hdst : dst.lanes.count = t.lanes)
    (ht : t.valid = true) (hnodup : dst.lanes.lanes.Nodup) {k : Nat} (hk : k < t.lanes) :
    m.supply σ (o.alignedTo dst) (dst.lanes.lanes.getD k .x).val =
      x (k / t.laneWidth) (k % t.laneWidth) := by
  have hlane := Operand.laneAt_alignedLanes (h.fits.count.trans hdst.symm)
    (by rw [hdst]; exact ValueType.lanes_le_four ht) hnodup (k := k)
    (by rw [h.fits.count]; exact hk)
  simp only [Machine.supply, Operand.alignedTo, h.settled.cell_eq, hlane, h.holds.lane hk,
    Sign.hits, Bool.false_eq_true, if_false]

end ShaderIL
