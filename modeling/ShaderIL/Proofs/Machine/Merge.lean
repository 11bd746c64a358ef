import ShaderIL.Proofs.Expr.Validation
import ShaderIL.Proofs.Machine.Simulation

/-!
# Four scalars side by side

Four scalars are merged in pairs, so the fourth is converted twice: to the kind of the third when those
two are merged, and to the kind of the first with it. The other three are converted once, from their own
kind to that of the first (`mergeFour_conversions`). On the way through the third kind the fourth may
lose what a direct conversion keeps; it never does exactly if the third kind is that of the first or of
the fourth, or if all three are integers, which share their bits (`Kind.convert_through_iff`).

The value of an argument is what its operand holds right after its own code; so nothing is asked of an
argument but that it is accepted, and operands given by their text are included.
-/

namespace ShaderIL

/-! ### Conversion by way of another kind -/

namespace Kind

/-- The kinds of the type system. -/
def all : List Kind := [.int, .uint, .float, .double, .bool]

theorem mem_all {k : Kind} (h : k.isStandard = true) : k ∈ all := by
  cases k with
  | invalid | other => cases h
  | int | uint | float | double | bool => decide

end Kind

namespace Machine

theorem convert_self (m : Machine) {k : Kind} (h : k.isStandard = true) (x : Nat → UInt32) :
    m.convert k k x = x := by
  cases k with
  | invalid | other => cases h
  | int | uint | float | double | bool => rfl

/-- Integers of either sign share their bits. -/
theorem convert_integer (m : Machine) {a b : Kind} (ha : a.isInteger = true)
    (hb : b.isInteger = true) (x : Nat → UInt32) : m.convert a b x = x := by
  cases a with
  | int | uint =>
    cases b with
    | int | uint => rfl
    | invalid | float | double | bool | other => cases hb
  | invalid | float | double | bool | other => cases ha

end Machine

/-- A number for each conversion. -/
def Mnemonic.tag : Mnemonic → UInt32
  | itof => 1
  | utof => 2
  | ftoi => 3
  | ftou => 4
  | d2f => 5
  | f2d => 6
  | itod => 7
  | utod => 8
  | dtoi => 9
  | dtou => 10
  | _ => 0

/-- A machine whose words tell which conversions they went through. -/
def Machine.tracing : Machine where
  word n xs := n.tag + 16 * xs.headD 0
  pair _ _ := (0, 0)
  narrow n x := n.tag + 16 * x.1
  widen n x := (n.tag + 16 * x, 0)
  gather _ _ _ := 0
  negate := id
  locate _ offset := offset

namespace Kind

variable {a b c : Kind}

/-- The ways through a third kind that the tracing machine cannot tell from the direct one. -/
theorem tracing_through : ∀ a ∈ all, ∀ b ∈ all, ∀ c ∈ all, a ≠ .double →
    (a.conversion b).isSome = true → (b.conversion c).isSome = true →
    Machine.tracing.convert a b (Machine.tracing.convert b c fun _ => 0) 0 =
      Machine.tracing.convert a c (fun _ => 0) 0 →
    b = a ∨ b = c ∨ (a.isInteger ∧ b.isInteger ∧ c.isInteger) := by
  decide +kernel

/-- A conversion by way of another kind is the direct one on every machine exactly if one of its two
steps is a move, and so are both where the kinds differ in sign only. -/
theorem convert_through_iff (ha : a.isStandard = true) (hb : b.isStandard = true)
    (hc : c.isStandard = true) (hdouble : a ≠ .double) (hab : (a.conversion b).isSome = true)
    (hbc : (b.conversion c).isSome = true) :
    (∀ (m : Machine) (x : Nat → UInt32), m.convert a b (m.convert b c x) 0 = m.convert a c x 0) ↔
      b = a ∨ b = c ∨ (a.isInteger ∧ b.isInteger ∧ c.isInteger) := by
  constructor
  · intro h
    exact tracing_through a (mem_all ha) b (mem_all hb) c (mem_all hc) hdouble hab hbc (h _ _)
  · rintro (rfl | rfl | ⟨ha', hb', hc'⟩) m x
    · rw [m.convert_self hb]
    · rw [m.convert_self hb]
    · rw [m.convert_integer hb' hc', m.convert_integer ha' hb', m.convert_integer ha' hc']

end Kind

/-! ### Operands of accepted trees -/

/-- The only component of a scalar operand. -/
def Contents.component (σ : Contents) (o : Operand) : Nat → UInt32 := fun j =>
  σ (.register o.place) (o.lanes.lanes.getD j .x)

theorem Contents.carries_component (σ : Contents) {o : Operand} {t : ValueType} {n : Nat}
    (hfits : o.Fits t) (hsettled : o.place.Settled n) (hone : t.components = 1) :
    σ.Carries n o t fun _ => σ.component o := by
  refine ⟨hfits, fun k hk j _ => ?_, hsettled⟩
  have hk0 : k = 0 := by omega
  rw [hk0, Nat.zero_mul, Nat.zero_add]
  rfl

namespace Expr

variable {unit : UnitId} {target : Target} {e : Expr} {d d' : Draft} {o : Operand}

/-- The operand of a node stays what it is if those of its children do. -/
theorem finish_settled {args : List Operand} {k : Nat} {is : List Instruction}
    (h : Finish target args d e o k is) (hvars : e.VarsBelow d.next)
    (hargs : ∀ a ∈ args, a.place.Settled d.next) : o.place.Settled (d.next + k) := by
  cases h with
  | @var v home _ hh => exact hvars v (by simp [vars, subterms]) home hh
  | @view v home _ _ _ hh => exact hvars v (by simp [vars, subterms]) home hh
  | literal => trivial
  | field ho => exact BufferField.operand_settled ho _
  | external ho =>
    obtain ⟨name, hname⟩ := externalOperand_place ho
    rw [hname]
    trivial
  | @select x p a ha =>
    refine hargs a ?_
    rw [ha]
    exact List.mem_singleton_self a
  | threadId => trivial
  | load => exact Nat.lt_succ_self _
  | window => exact Nat.add_lt_add_left Nat.one_lt_two _
  | operation => exact Nat.lt_add_of_pos_right (Nat.add_pos_left Nat.one_pos _)

/-- The operand of an accepted tree stays what it is when more registers are taken and written. -/
theorem Accepted.emit_settled (he : e.Accepted unit) (hvars : e.VarsBelow d.next)
    (hemit : e.emit target d = .ok (o, d')) :
    ∃ is, d.Extends d' is ∧ o.place.Settled d'.next := by
  have hinduct := he.emit_induction
    (P := fun d e o d' _ => e.VarsBelow d.next → o.place.Settled d'.next)
    (Q := fun d xs os d' _ => (∀ x ∈ xs, VarsBelow d.next x) → ∀ o ∈ os, o.place.Settled d'.next)
    (fun _ _ o ho => absurd ho List.not_mem_nil) ?_ ?_ hemit
  · obtain ⟨is, his, hsettled⟩ := hinduct
    exact ⟨is, his, hsettled hvars⟩
  · intro d d1 d2 x xs o os is js his hjs hx hxs hbelow o' ho'
    rcases List.mem_cons.mp ho' with rfl | ho'
    · exact (hx (hbelow x List.mem_cons_self)).mono hjs.next
    · exact hxs (fun y hy => (hbelow y (List.mem_cons_of_mem _ hy)).mono his.next) o' ho'
  · intro d e o d' args d1 k is js _ hdone hjs hargs hbelow
    have hnext : d.next ≤ d1.next := by simpa using hjs.next
    have hchildren := hargs fun x hx => by simpa using hbelow.child hx
    rw [hdone.finished.next]
    exact finish_settled hdone.finished.form (hbelow.mono hnext) hchildren

/-! ### Merging -/

theorem type_merge {a b : Expr} (h : (binary .merge a b).type.valid = true) :
    (binary .merge a b).type = ⟨a.type.kind, a.type.components + b.type.components⟩ ∧
      a.type.kind.isStandard = true ∧ b.type.kind.isStandard = true ∧
      (a.type.kind.conversion b.type.kind).isSome = true := by
  obtain ⟨f, hf⟩ := exists_overload h (by simp [operands])
  obtain ⟨-, -, hresult, -⟩ := overload?_spec hf
  have hmerge : BinaryOp.overload? .merge a.type b.type = some f := hf
  unfold BinaryOp.overload? at hmerge
  split_ifs at hmerge with hs
  simp only [Bool.and_eq_true, ValueType.standard] at hs
  obtain ⟨-, hr, mn, per, hconv⟩ := Overload.merge_spec hmerge
  rw [← hresult, hr, hconv]
  exact ⟨rfl, hs.1.2, hs.2.2, rfl⟩

/-- The code of a merge: that of the two operands, then lines that join what the operands hold. -/
theorem Accepted.emit_merge {a b : Expr} (he : (binary .merge a b).Accepted unit)
    (hemit : (binary .merge a b).emit target d = .ok (o, d')) :
    ∃ A d₁ B d₂ is, a.emit target d = .ok (A, d₁) ∧ b.emit target d₁ = .ok (B, d₂) ∧
      d₂.Extends d' is ∧ ∀ (m : Machine) (σ : Contents) (x y : Value),
        σ.CarriesAll d₂.next [A, B] [a.type, b.type] [x, y] →
          (m.run σ is).Carries d'.next o (binary .merge a b).type
            (BinaryOp.value m .merge a.type b.type x y) := by
  obtain ⟨args, d₂, k, is, hdone⟩ := he.emitted hemit
  obtain ⟨A, d₁, hA, hrest⟩ := Emit.bind_ok_iff.mp hdone.children
  obtain ⟨Bs, d₃, hBs, hargs⟩ := Emit.bind_ok_iff.mp hrest
  obtain ⟨B, d₄, hB, hnil⟩ := Emit.bind_ok_iff.mp hBs
  cases hnil
  cases hargs
  refine ⟨A, d₁, B, d₂, is, hA, hB, hdone.finished.extends, fun m σ x y hcarries => ?_⟩
  have hextends := hdone.finished.next
  have hfits := hdone.fits
  cases hdone.finished.form with
  | load hl => cases hl
  | @operation _ f hf =>
    obtain ⟨-, -, hresult, -⟩ := overload?_spec hf
    have hmerge : BinaryOp.overload? .merge a.type b.type = some f := hf
    have hfresh : f.single = true ∨ d₂.next ≤ d₂.next ∧ d₂.next < d₂.next + 1 :=
      .inr ⟨Nat.le_refl _, Nat.lt_succ_self _⟩
    have hholds := BinaryOp.computes (m := m) hmerge hcarries hfresh
    rw [hresult] at hholds hfits ⊢
    refine ⟨hfits, hholds, ?_⟩
    rw [hextends]
    exact Nat.lt_add_of_pos_right (Nat.add_pos_left Nat.one_pos _)

/-! ### Four scalars -/

theorem mergeFour_eq {x y z w e : Expr} (h : mergeFour x y z w = .ok e) :
    e = binary .merge (binary .merge x y) (binary .merge z w) := by
  obtain ⟨low, hlow, h⟩ := except_bind_eq_ok.mp h
  obtain ⟨high, hhigh, h⟩ := except_bind_eq_ok.mp h
  rw [mkBinary_eq hlow, mkBinary_eq hhigh] at h
  exact mkBinary_eq h

/-- The code of an argument: the drafts before and after it, its operand and its lines. -/
structure EmittedAs (target : Target) (e : Expr) (d : Draft) (o : Operand) (d' : Draft)
    (is : List Instruction) : Prop where
  emit : e.emit target d = .ok (o, d')
  lines : d.Extends d' is

/-- A scalar argument: its operand carries its only component wherever the operand is read. -/
theorem Accepted.emit_scalar (he : e.Accepted unit) (hvars : e.VarsBelow d.next)
    (hone : e.type.components = 1) (hemit : e.emit target d = .ok (o, d')) :
    ∃ is, EmittedAs target e d o d' is ∧
      ∀ σ : Contents, σ.Carries d'.next o e.type fun _ => σ.component o := by
  obtain ⟨is, his, hsettled⟩ := he.emit_settled hvars hemit
  exact ⟨is, ⟨hemit, his⟩, fun σ => σ.carries_component (he.emit_fits hemit) hsettled hone⟩

theorem Accepted.emit_merge_scalars {a b : Expr} (he : (binary .merge a b).Accepted unit)
    (hvars : (binary .merge a b).VarsBelow d.next) (ha : a.type.components = 1)
    (hb : b.type.components = 1) (hemit : (binary .merge a b).emit target d = .ok (o, d')) :
    ∃ A d₁ as B d₂ bs is, EmittedAs target a d A d₁ as ∧ EmittedAs target b d₁ B d₂ bs ∧
      d₂.Extends d' is ∧ ∀ (m : Machine) (σ : Contents),
        (m.run (m.run (m.run σ as) bs) is).Carries d'.next o (binary .merge a b).type
          (BinaryOp.value m .merge a.type b.type (fun _ => (m.run σ as).component A)
            fun _ => (m.run (m.run σ as) bs).component B) := by
  obtain ⟨A, d₁, B, d₂, is, hA, hB, his, hjoined⟩ := he.emit_merge hemit
  have hvarsA := hvars.child (x := a) (by simp [children])
  obtain ⟨as, has, hcarriesA⟩ :=
    (he.child (x := a) (by simp [children])).emit_scalar hvarsA ha hA
  have hvarsB := (hvars.child (x := b) (by simp [children])).mono has.lines.next
  obtain ⟨bs, hbs, hcarriesB⟩ :=
    (he.child (x := b) (by simp [children])).emit_scalar hvarsB hb hB
  refine ⟨A, d₁, as, B, d₂, bs, is, has, hbs, his, fun m σ => ?_⟩
  have hkept := (hcarriesA (m.run σ as)).agree (hbs.lines.agree m _)
  exact hjoined m _ _ _ (.cons (hkept.mono hbs.lines.next) (.cons (hcarriesB _) .nil))

/-- The components of four merged scalars of kinds `a`, `b`, `c` and `q`. -/
def mergedValue (m : Machine) (a b c q : Kind) (x y z w : Nat → UInt32) : Value
  | 0 => m.convert a a x
  | 1 => m.convert a b y
  | 2 => m.convert a c z
  | _ => m.convert a c (m.convert c q w)

theorem Accepted.type_mergeFour {x y z w : Expr}
    (he : (binary .merge (binary .merge x y) (binary .merge z w)).Accepted unit)
    (hscalar : ∀ a ∈ [x, y, z, w], a.type.components = 1) :
    (binary .merge (binary .merge x y) (binary .merge z w)).type = ⟨x.type.kind, 4⟩ := by
  have hlow := (he.child (x := binary .merge x y) (by simp [children])).typed.type_valid
  have hhigh := (he.child (x := binary .merge z w) (by simp [children])).typed.type_valid
  simp only [(type_merge he.typed.type_valid).1, (type_merge hlow).1, (type_merge hhigh).1,
    hscalar x (by simp), hscalar y (by simp), hscalar z (by simp), hscalar w (by simp)]

theorem merge_merge_value (m : Machine) {tx ty tz tw : ValueType} (hx : tx.components = 1)
    (hy : ty.components = 1) (hz : tz.components = 1) (hstandard : tx.kind.isStandard = true)
    (x y z w : Nat → UInt32) {k : Nat} (hk : k < 4) :
    BinaryOp.value m .merge ⟨tx.kind, tx.components + ty.components⟩
        ⟨tz.kind, tz.components + tw.components⟩
        (BinaryOp.value m .merge tx ty (fun _ => x) fun _ => y)
        (BinaryOp.value m .merge tz tw (fun _ => z) fun _ => w) k =
      mergedValue m tx.kind ty.kind tz.kind tw.kind x y z w k := by
  have hcases : k = 0 ∨ k = 1 ∨ k = 2 ∨ k = 3 := by omega
  rcases hcases with rfl | rfl | rfl | rfl <;>
    simp [BinaryOp.value, mergedValue, hx, hy, hz, m.convert_self hstandard]

/-- The code of four scalars side by side: that of each argument, and lines that write fresh registers.
It leaves the four components in the operand. -/
theorem Accepted.emit_mergeFour {x y z w : Expr}
    (he : (binary .merge (binary .merge x y) (binary .merge z w)).Accepted unit)
    (hscalar : ∀ a ∈ [x, y, z, w], a.type.components = 1)
    (hvars : (binary .merge (binary .merge x y) (binary .merge z w)).VarsBelow d.next)
    (hemit : (binary .merge (binary .merge x y) (binary .merge z w)).emit target d = .ok (o, d')) :
    ∃ ox d₁ xs oy d₂ ys d₃ low oz d₄ zs ow d₅ ws rest,
      EmittedAs target x d ox d₁ xs ∧ EmittedAs target y d₁ oy d₂ ys ∧ d₂.Extends d₃ low ∧
      EmittedAs target z d₃ oz d₄ zs ∧ EmittedAs target w d₄ ow d₅ ws ∧ d₅.Extends d' rest ∧
      ∀ (m : Machine) (σ : Contents),
        let σx := m.run σ xs
        let σy := m.run σx ys
        let σz := m.run (m.run σy low) zs
        let σw := m.run σz ws
        (m.run σw rest).Holds o ⟨x.type.kind, 4⟩
          (mergedValue m x.type.kind y.type.kind z.type.kind w.type.kind (σx.component ox)
            (σy.component oy) (σz.component oz) (σw.component ow)) := by
  have hlow : (binary .merge x y).Accepted unit := he.child (by simp [children])
  have hhigh : (binary .merge z w).Accepted unit := he.child (by simp [children])
  have htype := he.type_mergeFour hscalar
  obtain ⟨htlow, hkx, -, -⟩ := type_merge hlow.typed.type_valid
  obtain ⟨hthigh, -, -, -⟩ := type_merge hhigh.typed.type_valid
  have hx := hscalar x (by simp)
  have hy := hscalar y (by simp)
  have hz := hscalar z (by simp)
  have hw := hscalar w (by simp)
  obtain ⟨oLow, d₃, oHigh, dHigh, join, hemitLow, hemitHigh, hjoin, hjoined⟩ := he.emit_merge hemit
  have hvarsLow := hvars.child (x := binary .merge x y) (by simp [children])
  obtain ⟨ox, d₁, xs, oy, d₂, ys, low, hX, hY, hLow, hlowCarries⟩ :=
    hlow.emit_merge_scalars hvarsLow hx hy hemitLow
  have hnext : d.next ≤ d₃.next := (hX.lines.trans (hY.lines.trans hLow)).next
  have hvarsHigh := (hvars.child (x := binary .merge z w) (by simp [children])).mono hnext
  obtain ⟨oz, d₄, zs, ow, d₅, ws, high, hZ, hW, hHigh, hhighCarries⟩ :=
    hhigh.emit_merge_scalars hvarsHigh hz hw hemitHigh
  refine ⟨ox, d₁, xs, oy, d₂, ys, d₃, low, oz, d₄, zs, ow, d₅, ws, high ++ join, hX, hY, hLow, hZ, hW,
    hHigh.trans hjoin, fun m σ => ?_⟩
  -- the code of the second pair leaves the first pair alone
  have hkept := hZ.lines.trans (hW.lines.trans hHigh)
  have hlowNow := (hlowCarries m σ).agree (hkept.agree m _)
  rw [Machine.run_append, Machine.run_append] at hlowNow
  have hhighNow := hhighCarries m (m.run (m.run (m.run σ xs) ys) low)
  have hall := hjoined m _ _ _ (.cons (hlowNow.mono hkept.next) (.cons hhighNow .nil))
  rw [← Machine.run_append, htype] at hall
  refine hall.holds.congr fun k hk j _ => ?_
  rw [htlow, hthigh, merge_merge_value m hx hy hz hkx _ _ _ _ hk]

/-- **The fourth scalar is converted twice.** Three of four scalars side by side are converted once,
from their own kind to that of the first, and an argument of that kind arrives unchanged. The fourth is
converted to the kind of the third and from there: on every machine this is the direct conversion
exactly if the third kind is that of the first or of the fourth or all three are integers. -/
theorem mergeFour_conversions {x y z w : Expr} (hbuild : mergeFour x y z w = .ok e)
    (he : e.Accepted unit) (hscalar : ∀ a ∈ [x, y, z, w], a.type.components = 1)
    (hvars : e.VarsBelow d.next) (hemit : e.emit target d = .ok (o, d')) :
    e.type = ⟨x.type.kind, 4⟩ ∧
    (∀ (m : Machine) (c : Nat → UInt32), m.convert x.type.kind x.type.kind c = c) ∧
    ((∀ (m : Machine) (c : Nat → UInt32),
        m.convert x.type.kind z.type.kind (m.convert z.type.kind w.type.kind c) 0 =
          m.convert x.type.kind w.type.kind c 0) ↔
      z.type.kind = x.type.kind ∨ z.type.kind = w.type.kind ∨
        (x.type.kind.isInteger ∧ z.type.kind.isInteger ∧ w.type.kind.isInteger)) ∧
    ∃ ox d₁ xs oy d₂ ys d₃ low oz d₄ zs ow d₅ ws rest,
      EmittedAs target x d ox d₁ xs ∧ EmittedAs target y d₁ oy d₂ ys ∧ d₂.Extends d₃ low ∧
      EmittedAs target z d₃ oz d₄ zs ∧ EmittedAs target w d₄ ow d₅ ws ∧ d₅.Extends d' rest ∧
      ∀ (m : Machine) (σ : Contents),
        let σx := m.run σ xs
        let σy := m.run σx ys
        let σz := m.run (m.run σy low) zs
        let σw := m.run σz ws
        (m.run σw rest).Holds o e.type
          (mergedValue m x.type.kind y.type.kind z.type.kind w.type.kind (σx.component ox)
            (σy.component oy) (σz.component oz) (σw.component ow)) := by
  obtain rfl := mergeFour_eq hbuild
  have hlow : (binary .merge x y).Accepted unit := he.child (by simp [children])
  have hhigh : (binary .merge z w).Accepted unit := he.child (by simp [children])
  have htype := he.type_mergeFour hscalar
  obtain ⟨-, -, -, houter⟩ := type_merge he.typed.type_valid
  obtain ⟨htlow, hkx, -, -⟩ := type_merge hlow.typed.type_valid
  obtain ⟨hthigh, hkz, hkw, hinner⟩ := type_merge hhigh.typed.type_valid
  rw [htlow, hthigh] at houter
  -- four doubles do not fit a register
  have hdouble : x.type.kind ≠ .double := by
    have hvalid := he.typed.type_valid
    rw [htype, ValueType.valid_iff] at hvalid
    rcases hvalid.2 with hone | htwo | ⟨-, hkind⟩
    · cases hone
    · cases htwo
    · exact hkind
  refine ⟨htype, fun m c => m.convert_self hkx c,
    Kind.convert_through_iff hkx hkz hkw hdouble houter hinner, ?_⟩
  rw [htype]
  exact he.emit_mergeFour hscalar hvars hemit

/-! ### Variables as arguments -/

/-- A variable of the first unit. -/
def ofRegister (t : ValueType) (r : Nat) : Expr := .var ⟨t, some ⟨⟨0, 1⟩, r⟩⟩

/-- A variable that is read after code into fresh registers still holds what it held. -/
theorem EmittedAs.component_ofRegister {t : ValueType} {r : Nat} {d₀ : Draft}
    {is before : List Instruction} (h : EmittedAs target (ofRegister t r) d o d' is)
    (hbefore : d₀.Extends d' before) (hr : r < d₀.next) (m : Machine) (σ : Contents) :
    (m.run σ before).component o = σ.component (.ofType (.temp r) t) := by
  cases h.emit
  funext j
  refine hbefore.agree m σ _ _ fun q hq => ?_
  cases hq
  exact hr

/-- Variables of four types in the first registers, side by side. -/
def mergedRegisters (a b c q : ValueType) : Expr :=
  binary .merge (binary .merge (ofRegister a 0) (ofRegister b 1))
    (binary .merge (ofRegister c 2) (ofRegister q 3))

theorem mergedRegisters_varsBelow (a b c q : ValueType) : (mergedRegisters a b c q).VarsBelow 4 := by
  have hvars : (mergedRegisters a b c q).vars = [⟨a, some ⟨⟨0, 1⟩, 0⟩⟩, ⟨b, some ⟨⟨0, 1⟩, 1⟩⟩,
      ⟨c, some ⟨⟨0, 1⟩, 2⟩⟩, ⟨q, some ⟨⟨0, 1⟩, 3⟩⟩] := rfl
  intro v hv home hh
  simp only [hvars, List.mem_cons, List.not_mem_nil, or_false] at hv
  rcases hv with rfl | rfl | rfl | rfl <;> cases hh <;> decide

/-- The premises can be met by four variables of different kinds. The last one is an unsigned integer:
it becomes a double like the third and then a single like the first. -/
theorem mergeFour_of_four_kinds :
    let d : Draft := { next := 4 }
    let e := mergedRegisters .float1 .int1 .double1 .uint1
    ∃ o d' is, mergeFour (ofRegister .float1 0) (ofRegister .int1 1) (ofRegister .double1 2)
        (ofRegister .uint1 3) = .ok e ∧
      e.Accepted ⟨0, 1⟩ ∧ e.VarsBelow d.next ∧ e.emit .pixel d = .ok (o, d') ∧ d.Extends d' is ∧
      ∀ (m : Machine) (σ : Contents),
        m.run σ is (.register o.place) (o.lanes.lanes.getD 3 .x) =
          m.narrow .d2f (m.widen .utod (σ (.register (.temp 3)) .x)) := by
  intro d e
  have hbuild : mergeFour (ofRegister .float1 0) (ofRegister .int1 1) (ofRegister .double1 2)
      (ofRegister .uint1 3) = .ok e := rfl
  have htyped : e.WellTyped := by
    unfold WellTyped
    decide +kernel
  have he : e.Accepted ⟨0, 1⟩ := ⟨htyped, by decide +kernel⟩
  have hvars : e.VarsBelow d.next := mergedRegisters_varsBelow _ _ _ _
  obtain ⟨o, d', hemit, -⟩ := he.emit_ok .pixel d
  have hscalar : ∀ a ∈ [ofRegister .float1 0, ofRegister .int1 1, ofRegister .double1 2,
      ofRegister .uint1 3], a.type.components = 1 := by decide +kernel
  obtain ⟨htype, -, -, ox, d₁, xs, oy, d₂, ys, d₃, low, oz, d₄, zs, ow, d₅, ws, rest, hX, hY, hLow,
    hZ, hW, hRest, hmerged⟩ := mergeFour_conversions hbuild he hscalar hvars hemit
  rw [htype] at hmerged
  have hbefore := hX.lines.trans (hY.lines.trans (hLow.trans (hZ.lines.trans hW.lines)))
  refine ⟨o, d', _, hbuild, he, hvars, hemit, hbefore.trans hRest, fun m σ => ?_⟩
  have hlast := hmerged m σ 3 (by decide) 0 (by decide)
  have hsame := hW.component_ofRegister hbefore (by decide) m σ
  simp only [Machine.run_append] at hsame ⊢
  rw [hsame] at hlast
  exact hlast

/-- Four scalars are not each converted once: of single, single, integer and single the last one is
turned into an integer and back, so a single that already has the kind of the result may change. -/
theorem fourth_scalar_converted_twice :
    let d : Draft := { next := 4 }
    let e := mergedRegisters .float1 .float1 .int1 .float1
    ∃ o d' is, mergeFour (ofRegister .float1 0) (ofRegister .float1 1) (ofRegister .int1 2)
        (ofRegister .float1 3) = .ok e ∧
      e.Accepted ⟨0, 1⟩ ∧ e.emit .pixel d = .ok (o, d') ∧ d.Extends d' is ∧
      ∃ (m : Machine) (σ : Contents),
        m.run σ is (.register o.place) (o.lanes.lanes.getD 3 .x) ≠
          m.convert .float .float (fun _ => σ (.register (.temp 3)) .x) 0 := by
  intro d e
  have htyped : e.WellTyped := by
    unfold WellTyped
    decide +kernel
  have he : e.Accepted ⟨0, 1⟩ := ⟨htyped, by decide +kernel⟩
  have hvars : e.VarsBelow d.next := mergedRegisters_varsBelow _ _ _ _
  obtain ⟨o, d', hemit, -⟩ := he.emit_ok .pixel d
  have hscalar : ∀ a ∈ [ofRegister .float1 0, ofRegister .float1 1, ofRegister .int1 2,
      ofRegister .float1 3], a.type.components = 1 := by decide +kernel
  obtain ⟨ox, d₁, xs, oy, d₂, ys, d₃, low, oz, d₄, zs, ow, d₅, ws, rest, hX, hY, hLow, hZ, hW, hRest,
    hmerged⟩ := Accepted.emit_mergeFour he hscalar hvars hemit
  have hbefore := hX.lines.trans (hY.lines.trans (hLow.trans (hZ.lines.trans hW.lines)))
  refine ⟨o, d', _, rfl, he, hemit, hbefore.trans hRest, .tracing, fun _ _ => 0, ?_⟩
  have hlast := hmerged .tracing (fun _ _ => 0) 3 (by decide) 0 (by decide)
  have hsame := hW.component_ofRegister hbefore (by decide) .tracing fun _ _ => 0
  simp only [Machine.run_append] at hsame ⊢
  rw [hsame] at hlast
  have hword : Machine.tracing.run _ rest (.register o.place) (o.lanes.lanes.getD 3 .x) = 49 := hlast
  rw [hword]
  decide +kernel

end Expr

end ShaderIL
