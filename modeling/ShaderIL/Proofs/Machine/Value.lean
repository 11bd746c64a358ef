import ShaderIL.Proofs.Expr.Emission
import ShaderIL.Proofs.Machine.Basic

/-!
# The value of an expression

`Expr.value` gives the value of a tree in a store, component by component and without reference to
registers or code. An operation works on each component alone: component `k` of a sum is what the
machine's addition makes of the `k`-th components, with the only component of a scalar standing in
for all. A comparison with no instruction of its own has its operands swapped, integers are
subtracted by adding the negative, and the remainder of two floats is `a - b * floor (a / b)`.
Merging puts components side by side, a bit cast reads the words of the value in the order in which
they lie in a register.
-/

namespace ShaderIL

/-- The value with the only component of a scalar in all places. -/
def Value.spread (t : ValueType) (x : Value) : Value := fun k => x (if t.components = 1 then 0 else k)

theorem Value.spread_of_lt {t : ValueType} {x : Value} {k : Nat} (hk : k < t.components) :
    x.spread t k = x k := by
  unfold spread
  split_ifs with hone
  · rw [show k = 0 by omega]
  · rfl

namespace Machine

variable (m : Machine)

/-- What the mnemonic for a kind makes of components. -/
def applyBy (table : Kind → Option Mnemonic) (kind : Kind) (cs : List (Nat → UInt32)) :
    Nat → UInt32 :=
  m.apply ((table kind).getD .blank) cs

/-- A component turned into another kind. -/
def convert (target source : Kind) (c : Nat → UInt32) : Nat → UInt32 :=
  m.apply (((target.conversion source).map Prod.fst).getD .blank) [c]

end Machine

/-- What a unary operation makes of a value of type `t`. -/
def UnaryOp.value (m : Machine) (op : UnaryOp) (t : ValueType) (x : Value) : Value := fun k =>
  match op with
  | .neg =>
    match t.kind with
    | .float => m.negated (x k)
    | .double => m.highNegated (x k)
    | _ => m.apply .inegate [x k]
  | .bitNot | .not => m.apply .inot [x k]
  | .abs => m.apply .abs [x k]
  | .sqrt => m.apply .sqrt [x k]
  | .rsqrt => m.apply .rsqrt [x k]
  | .floor => m.apply .floor [x k]
  | .ceil => m.apply .ceil [x k]
  | .fract => m.apply .fract [x k]

/-- What a conversion makes of a value of type `source`. -/
def Conversion.value (m : Machine) (op : Conversion) (target source : ValueType) (x : Value) :
    Value := fun k =>
  match op with
  | .cast => m.convert target.kind source.kind (x k)
  | .bitcast => fun j =>
    let p := k * target.laneWidth + j
    x (p / source.laneWidth) (p % source.laneWidth)

/-- What a binary operation makes of values of types `a` and `b`. -/
def BinaryOp.value (m : Machine) (op : BinaryOp) (a b : ValueType) (x y : Value) : Value := fun k =>
  let u := x.spread a k
  let v := y.spread b k
  match op with
  | .add => m.applyBy (Mnemonic.numeric .add .dadd .iadd .iadd) a.kind [u, v]
  | .sub =>
    match a.kind with
    | .float => m.apply .sub [u, v]
    | .double => m.apply .dadd [u, m.highNegated v]
    | _ => m.apply .iadd [u, m.apply .inegate [v]]
  | .mul => m.applyBy (Mnemonic.numeric .mul .dmul .imul .umul) a.kind [u, v]
  | .div => m.applyBy (Mnemonic.numeric .div .ddiv .idiv .udiv) a.kind [u, v]
  | .mod =>
    match a.kind with
    | .float => m.apply .mad [m.negated (m.apply .floor [m.apply .div [u, v]]), v, u]
    | .int => m.apply .imod [u, v]
    | _ => m.apply .umod [u, v]
  | .min => m.applyBy (Mnemonic.numeric .min .dmin .imin .umin) a.kind [u, v]
  | .max => m.applyBy (Mnemonic.numeric .max .dmax .imax .umax) a.kind [u, v]
  | .and => m.apply .iand [u, v]
  | .or => m.apply .ior [u, v]
  | .xor => m.apply .ixor [u, v]
  | .shl => m.apply .ishl [u, v]
  | .shr => m.apply (if a.kind = .int then .ishr else .ushr) [u, v]
  | .eq => m.applyBy (Mnemonic.equality .eq .deq .ieq) a.kind [u, v]
  | .ne => m.applyBy (Mnemonic.equality .ne .dne .ine) a.kind [u, v]
  | .lt => m.applyBy (Mnemonic.numeric .lt .dlt .ilt .ult) a.kind [u, v]
  | .le => m.applyBy (Mnemonic.numeric .ge .dge .ige .uge) a.kind [v, u]
  | .gt => m.applyBy (Mnemonic.numeric .lt .dlt .ilt .ult) a.kind [v, u]
  | .ge => m.applyBy (Mnemonic.numeric .ge .dge .ige .uge) a.kind [u, v]
  | .dot => m.apply (if a.components = 2 then .dot2 else .dot4)
      [fun p => x p 0, fun p => y p 0]
  | .merge =>
    if k < a.components then x k else m.convert a.kind b.kind (y (k - a.components))

/-- What a ternary operation makes of values of types `a`, `b` and `c`. -/
def TernaryOp.value (m : Machine) (op : TernaryOp) (a b c : ValueType) (x y z : Value) : Value :=
  fun k =>
  let us := [x.spread a k, y.spread b k, z.spread c k]
  match op with
  | .mad => m.applyBy (Mnemonic.numeric .mad .dmad .imad .umad) a.kind us
  | .select => m.apply .cmov us
  | .bitAlign => m.apply .bitAlign us
  | .byteAlign => m.apply .byteAlign us
  | .bitInsert => m.apply .bitInsert us
  | .bitExtract => m.apply (if a.kind = .uint then .ubitExtract else .ibitExtract) us

/-- The value of a variable: the leading lanes of its register. -/
def Variable.value (σ : Contents) (v : Variable) : Value := fun k j =>
  match v.home with
  | some h => σ (.register (.temp h.register)) (.ofIndex (k * v.declared.laneWidth + j))
  | none => 0

/-- The position of the work item: the thread number of a compute program, the window position
rounded down of any other. -/
def positionValue (m : Machine) (target : Target) (σ : Contents) (t : ValueType) : Value := fun k =>
  let thread : Nat → UInt32 := fun _ => σ (.register .threadId) (.ofIndex k)
  let window : Nat → UInt32 := fun _ => σ (.register .windowPosition) (.ofIndex k)
  if target = .compute then
    if t.kind = .float then m.apply .itof [thread] else thread
  else
    let rounded := m.apply .floor [window]
    if t.kind = .float then rounded else m.apply t.kind.fromFloat [rounded]

/-- The value of an expression in a store. Trees without a type have none, and operands given by
their text are not looked into. -/
def Expr.value (m : Machine) (target : Target) (σ : Contents) : Expr → Value
  | absent | unselected _ _ | external _ _ => fun _ _ => 0
  | unary op x => op.value m x.type (x.value m target σ)
  | convert op t x => op.value m t x.type (x.value m target σ)
  | binary op x y => op.value m x.type y.type (x.value m target σ) (y.value m target σ)
  | ternary op x y z =>
    op.value m x.type y.type z.type (x.value m target σ) (y.value m target σ) (z.value m target σ)
  | select x p => fun k => x.value m target σ (p.lanes.getD k .x).val
  | literal l => fun k j => l.bits.toList.getD (k * l.declared.laneWidth + j) 0
  | field f => fun k j =>
    match f.operand with
    | .ok o => σ (.register o.place) (o.lanes.lanes.getD (k * f.type.laneWidth + j) .x)
    | .error _ => 0
  | var v => v.value σ
  | view v mask => fun k j =>
    match v.viewLanes mask with
    | .ok s => v.value σ (s.lanes.getD k .x).val j
    | .error _ => 0
  | sample i c => fun k j =>
    m.apply (.sample i.slot) [fun p => c.value m target σ p 0] (k * i.type.laneWidth + j)
  | element t b offset => fun k j =>
    σ (.memory (m.locate (b.value m target σ 0 0) offset)) (.ofIndex (k * t.laneWidth + j))
  | elementAt t offset => fun k j => σ (.memory offset) (.ofIndex (k * t.laneWidth + j))
  | position t => positionValue m target σ t

/-! ### What a value depends on -/

/-- A field lies in a register that no instruction writes. -/
theorem BufferField.operand_settled {f : BufferField} {o : Operand} (h : f.operand = .ok o)
    (n : Nat) : o.place.Settled n := by
  obtain ⟨name, hplace⟩ := externalOperand_place (operand_eq h)
  rw [hplace, placeOf]
  split_ifs
  · exact trivial
  · exact trivial

namespace Expr

variable {m : Machine} {target : Target} {σ σ' : Contents} {e : Expr} {n : Nat}

theorem variable_value_congr {v : Variable} (hσ : Contents.Agree n σ σ')
    (hv : ∀ h, v.home = some h → h.register < n) : v.value σ' = v.value σ := by
  funext k j
  unfold Variable.value
  cases hh : v.home with
  | none => rfl
  | some h =>
    refine hσ _ _ fun r hr => ?_
    cases hr
    exact hv h hh

/-- A value depends on the variables of the tree, the global buffer and registers that are never
written. -/
theorem value_congr (hσ : Contents.Agree n σ σ') (hvars : e.VarsBelow n) :
    e.value m target σ' = e.value m target σ := by
  induction e with
  | absent => rfl
  | external => rfl
  | literal => rfl
  | unselected => rfl
  | unary op x ih =>
    simp only [value, ih (hvars.child (by simp [children]))]
  | convert op t x ih =>
    simp only [value, ih (hvars.child (by simp [children]))]
  | binary op x y ihx ihy =>
    simp only [value, ihx (hvars.child (by simp [children])),
      ihy (hvars.child (by simp [children]))]
  | ternary op x y z ihx ihy ihz =>
    simp only [value, ihx (hvars.child (by simp [children])),
      ihy (hvars.child (by simp [children])), ihz (hvars.child (by simp [children]))]
  | select x p ih =>
    simp only [value, ih (hvars.child (by simp [children]))]
  | field f =>
    funext k j
    simp only [value]
    cases ho : f.operand with
    | error e => rfl
    | ok o => exact (BufferField.operand_settled ho n).agree hσ _
  | var v =>
    exact variable_value_congr hσ (hvars v (by simp [vars, subterms]))
  | view v mask =>
    simp only [value, variable_value_congr hσ (hvars v (by simp [vars, subterms]))]
  | sample i c ih =>
    simp only [value, ih (hvars.child (by simp [children]))]
  | element t b offset ih =>
    funext k j
    simp only [value, ih (hvars.child (by simp [children]))]
    exact hσ _ _ fun r hr => by cases hr
  | elementAt t offset =>
    funext k j
    exact hσ _ _ fun r hr => by cases hr
  | position t =>
    have hthread := fun k => hσ (.register .threadId) (.ofIndex k) fun r hr => by cases hr
    have hwindow := fun k => hσ (.register .windowPosition) (.ofIndex k) fun r hr => by cases hr
    funext k
    simp only [value, positionValue, hthread, hwindow]

end Expr

end ShaderIL
