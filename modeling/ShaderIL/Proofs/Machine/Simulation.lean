import ShaderIL.Proofs.Machine.Operations

/-!
# The code of a tree computes its value

Running the code that a tree was emitted as leaves its value in the operand that emission returned.
`Finish.carries` is the step, for a node on operands that carry the values of its children;
`Accepted.emit_computes` is the whole tree. The code of a tree writes fresh registers only, so
operands of earlier siblings still carry their values when the node's own lines run, and a value read
after some of the code is the value before it.
-/

namespace ShaderIL

variable {m : Machine} {target : Target} {σ : Contents} {n : Nat}

/-! ### Operands without code -/

theorem Contents.carries_ofType (σ : Contents) {place : Place} {t : ValueType} (ht : t.valid = true)
    (hp : place.Settled n) : σ.Carries n (Operand.ofType place t) t
      fun k j => σ (.register place) (.ofIndex (k * t.laneWidth + j)) := by
  refine ⟨Operand.ofType_fits place ht, fun k hk j hj => ?_, hp⟩
  rw [Operand.getD_ofType place ht (ValueType.lane_lt hk hj)]
  rfl

theorem Contents.carries_leading (σ : Contents) {place : Place} {t : ValueType} {c : Nat}
    (ht : t.valid = true) (hw : t.laneWidth = 1) (hc : c ≤ t.components) (hp : place.Settled n) :
    σ.Carries n (leading place t c) ⟨t.kind, c⟩ fun k _ => σ (.register place) (.ofIndex k) := by
  have h4 := ValueType.components_le_four ht
  have hsum : 0 + c ≤ t.components := by omega
  have hpick := (σ.carries_ofType ht hp).picked
    (Swizzle.maxLane_span hsum (ValueType.components_pos ht) h4)
  have hcount : (⟨(List.range c).map fun i => Lane.ofIndex (0 + i)⟩ : Swizzle).count = c := by
    simp [Swizzle.count]
  rw [hcount] at hpick
  refine ⟨hpick.fits, hpick.holds.congr fun k hk j hj => ?_, hpick.settled⟩
  have hk : k < c := hk
  have hj : j < t.laneWidth := hj
  have hget : ((List.range c).map fun i => Lane.ofIndex (0 + i)).getD k .x = .ofIndex k := by
    simp [hk]
  simp only [hget, hw, Nat.mul_one, show j = 0 by omega, Nat.add_zero,
    Lane.val_ofIndex (show k < 4 by omega)]

theorem Variable.carries {v : Variable} {h : Home} (hv : v.declared.valid = true)
    (hh : v.home = some h) (hn : h.register < n) :
    σ.Carries n (Operand.ofType (.temp h.register) v.declared) v.declared (v.value σ) := by
  have hcarries : σ.Carries n (Operand.ofType (.temp h.register) v.declared) v.declared _ :=
    σ.carries_ofType hv hn
  refine ⟨hcarries.fits, hcarries.holds.congr fun k _ j _ => ?_, hcarries.settled⟩
  rw [Variable.value, hh]

theorem Variable.carries_view {v : Variable} {h : Home} {mask : String} {s : Swizzle}
    (hv : v.declared.valid = true) (hh : v.home = some h) (hs : v.viewLanes mask = .ok s)
    (hn : h.register < n) :
    σ.Carries n ((Operand.ofType (.temp h.register) v.declared).picked s)
      ⟨v.declared.kind, s.count⟩ ((Expr.view v mask).value m target σ) := by
  obtain ⟨hmax, -⟩ := Variable.viewLanes_spec hv hs
  have hpick := (v.carries (σ := σ) hv hh hn).picked hmax
  refine ⟨hpick.fits, hpick.holds.congr fun k _ j _ => ?_, hpick.settled⟩
  simp only [Expr.value, hs]

/-! ### Loads into a fresh register -/

theorem Machine.step_freshLine {mn : Mnemonic} {t : ValueType} {source : Operand} {r : Nat}
    {y : Value} (ht : t.valid = true)
    (h : ∀ k < t.components, ∀ j < t.laneWidth,
      m.apply mn [m.supply σ source.source] (k * t.laneWidth + j) = y k j) :
    (m.step σ (freshLine mn t source r)).Holds (Operand.ofType (.temp r) t) t y := by
  refine step_holds (Operand.ofType_fits _ ht) rfl fun k hk j hj => ?_
  rw [Operand.val_getD_ofType _ ht (ValueType.lane_lt hk hj)]
  exact h k hk j hj

theorem Machine.supply_element {t : ValueType} (ht : t.valid = true) (place : Place) {p : Nat}
    (hp : p < t.lanes) :
    m.supply σ (Operand.ofType place t).source p = σ (m.cell σ place) (.ofIndex p) := by
  have hcount : p < (Operand.ofType place t).lanes.count := by
    rw [(Operand.ofType_fits place ht).count]
    exact hp
  simp only [supply, Operand.source, Operand.signed, Sign.hits, Bool.false_eq_true, if_false,
    Swizzle.laneAt_of_lt hcount, Operand.getD_ofType place ht hp]
  rfl

theorem Kind.fromFloat_lanewise {k : Kind} (hk : k ≠ .double) : k.fromFloat.Lanewise 1 := by
  have hw : k.laneWidth = 1 := ValueType.laneWidth_eq_one (t := ⟨k, 1⟩) hk
  unfold fromFloat
  cases hconv : k.conversion .float with
  | none => exact .inr (.inl ⟨rfl, rfl⟩)
  | some p =>
    obtain ⟨mn, per⟩ := p
    obtain ⟨halone, hwhole⟩ := conversion_shape hconv
    cases per with
    | true =>
      rcases halone rfl with ⟨h, -⟩ | ⟨-, h, -⟩ | ⟨-, -, h⟩
      · exact .inr (.inl ⟨h, rfl⟩)
      · cases h
      · rw [hw] at h
        cases h
    | false =>
      rcases (hwhole rfl).2 with h | ⟨h, -⟩
      · exact .inl h
      · exact .inr (.inl ⟨h, rfl⟩)

/-- A line that converts or rounds the components of a position. -/
theorem Machine.step_position {mn : Mnemonic} {t u : ValueType} {source : Operand} {r : Nat}
    {x : Value} (hn : mn.Lanewise 1) (ht : t.valid = true) (hw : t.laneWidth = 1)
    (hu : u.valid = true) (huw : u.laneWidth = 1) (hc : u.components = t.components)
    (hs : σ.Carries n source u x) :
    (m.step σ (freshLine mn t source r)).Holds (Operand.ofType (.temp r) t) t
      fun k => m.apply mn [x k] := by
  have hsupplies := hs.supplies (m := m) hu
  rw [huw, hc] at hsupplies
  exact step_componentwise ht hn (.inl hw) (.cons hsupplies .nil)

/-- The types of a position: one word for each component, whatever register it is read from. -/
theorem position_spec {t : ValueType} (h : (positionError t).isSome = false) :
    t.valid = true ∧ t.laneWidth = 1 ∧ t.components ≤ 2 ∧
      (⟨.int, t.components⟩ : ValueType).valid = true ∧
      (⟨.float, t.components⟩ : ValueType).valid = true := by
  obtain ⟨hv, h2, -, hd⟩ := positionError_eq_none h
  exact ⟨hv, ValueType.laneWidth_eq_one hd, h2,
    ValueType.valid_of_components hv (by decide) (by decide),
    ValueType.valid_of_components hv (by decide) (by decide)⟩

theorem Contents.carries_threadId (σ : Contents) {t : ValueType}
    (h : (positionError t).isSome = false) :
    σ.Carries n (leading .threadId .int4 t.components) ⟨.int, t.components⟩
      fun k _ => σ (.register .threadId) (.ofIndex k) := by
  obtain ⟨-, -, h2, -⟩ := position_spec h
  have hle : t.components ≤ ValueType.int4.components := by
    simp only [ValueType.int4]
    omega
  exact σ.carries_leading (by decide) rfl hle trivial

theorem Contents.carries_window (σ : Contents) {t : ValueType}
    (h : (positionError t).isSome = false) :
    σ.Carries n (leading .windowPosition .float4 t.components) ⟨.float, t.components⟩
      fun k _ => σ (.register .windowPosition) (.ofIndex k) := by
  obtain ⟨-, -, h2, -⟩ := position_spec h
  have hle : t.components ≤ ValueType.float4.components := by
    simp only [ValueType.float4]
    omega
  exact σ.carries_leading (by decide) rfl hle trivial

theorem Contents.CarriesAll.head {o : Operand} {t : ValueType} {x : Value}
    (h : σ.CarriesAll n [o] [t] [x]) : σ.Carries n o t x := by
  obtain _ | ⟨h, _⟩ := h
  exact h

/-- The nodes that are one line into a fresh register. -/
theorem Loads.holds {unit : UnitId} {e : Expr} {args : List Operand} {mn : Mnemonic} {t : ValueType}
    {source : Operand} {r : Nat} (hl : Loads target args e mn t source) (he : e.Accepted unit)
    (hargs : σ.CarriesAll n args (e.children.map Expr.type)
      (e.children.map (Expr.value m target σ))) :
    e.type = t ∧ (m.step σ (freshLine mn t source r)).Holds (Operand.ofType (.temp r) t) t
      (e.value m target σ) := by
  have hv := he.typed.type_valid
  cases hl with
  | @sample i c a ha =>
    subst ha
    have hc := (he.typed.child (x := c) (by simp [Expr.children])).type_valid
    obtain ⟨htype, hcoord⟩ := Expr.type_sample hv hc
    have hcarries := hargs.head
    rw [hcoord] at hcarries
    refine ⟨htype, Machine.step_freshLine (htype ▸ hv) fun k hk j hj => ?_⟩
    refine Machine.apply_gathers rfl (.cons (fun p hp => ?_) .nil) _
    have hsupply := hcarries.supplies (m := m) (by decide) p hp
    rwa [show ValueType.float2.laneWidth = 1 from rfl, Nat.div_one, Nat.mod_one] at hsupply
  | @element _ b offset a ha =>
    subst ha
    have htype := Expr.type_element hv
    have hb := (he.typed.child (x := b) (by simp [Expr.children])).type_valid
    have hcarries := hargs.head
    refine ⟨htype, Machine.step_freshLine (htype ▸ hv) fun k hk j hj => ?_⟩
    have hbase := hcarries.holds 0 (ValueType.components_pos hb) 0 b.type.laneWidth_pos
    rw [Nat.zero_mul, Nat.zero_add] at hbase
    have hlane : a.lanes.laneAt 0 = a.lanes.lanes.getD 0 .x := by
      rw [Swizzle.laneAt, Nat.zero_min]
    have hsupply := Machine.supply_element (m := m) (σ := σ) (htype ▸ hv)
      (.globalFrom a.place a.lanes offset) (ValueType.lane_lt hk hj)
    rw [Machine.cell, hcarries.settled.cell_eq, hlane, hbase] at hsupply
    exact hsupply
  | @elementAt _ offset =>
    have htype := Expr.type_elementAt hv
    refine ⟨htype, Machine.step_freshLine (htype ▸ hv) fun k hk j hj => ?_⟩
    exact Machine.supply_element (htype ▸ hv) (.globalAt offset) (ValueType.lane_lt hk hj)
  | threadId ht hk =>
    obtain ⟨htype, herr⟩ := Expr.type_position hv
    obtain ⟨htv, hw, -, hint, -⟩ := position_spec herr
    refine ⟨htype, (Machine.step_position (n := n) (.inr (.inl ⟨rfl, rfl⟩)) htv hw hint rfl rfl
      (σ.carries_threadId herr)).congr fun k _ j _ => ?_⟩
    simp only [Expr.value, positionValue, ht, hk, if_true]
  | window ht hk =>
    obtain ⟨htype, herr⟩ := Expr.type_position hv
    obtain ⟨htv, hw, -, -, hfloat⟩ := position_spec herr
    refine ⟨htype, (Machine.step_position (n := n) (.inr (.inl ⟨rfl, rfl⟩)) htv hw hfloat rfl rfl
      (σ.carries_window herr)).congr fun k _ j _ => ?_⟩
    simp only [Expr.value, positionValue, ht, hk, if_true, if_false]

/-! ### Operations -/

theorem Expr.operation_holds {e : Expr} {f : Overload} {args : List Operand} (r start : Nat)
    (hf : e.overload? = some f) (hdst : f.single = true ∨ n ≤ r ∧ r < start)
    (hargs : σ.CarriesAll n args (e.children.map type) (e.children.map (value m target σ))) :
    (m.run σ (f.lines (.ofType (.temp r) f.result) args start)).Holds
      (.ofType (.temp r) f.result) f.result (e.value m target σ) := by
  cases e with
  | unary op x =>
    obtain _ | ⟨hx, _ | _⟩ := hargs
    exact UnaryOp.computes hf (.cons hx .nil)
  | convert op t x =>
    obtain _ | ⟨hx, _ | _⟩ := hargs
    exact Conversion.computes hf (.cons hx .nil) (hdst.imp_right And.left)
  | binary op x y =>
    obtain _ | ⟨hx, _ | ⟨hy, _ | _⟩⟩ := hargs
    exact BinaryOp.computes hf (.cons hx (.cons hy .nil)) hdst
  | ternary op x y z =>
    obtain _ | ⟨hx, _ | ⟨hy, _ | ⟨hz, _ | _⟩⟩⟩ := hargs
    exact TernaryOp.computes hf (.cons hx (.cons hy (.cons hz .nil))) (hdst.imp_right And.left)
  | _ => cases hf

/-! ### Nodes and trees -/

/-- A node on operands that carry the values of its children. -/
theorem Finish.carries {unit : UnitId} {e : Expr} {args : List Operand} {d : Draft} {o : Operand}
    {k : Nat} {is : List Instruction} (h : Finish target args d e o k is) (he : e.Accepted unit)
    (hext : e.ExternalFree) (hvars : e.VarsBelow d.next) (hfits : o.Fits e.type)
    (hload : σ.Numbered (e.interned d.literals))
    (hargs : σ.CarriesAll d.next args (e.children.map Expr.type)
      (e.children.map (Expr.value m target σ))) :
    (m.run σ is).Carries (d.next + k) o e.type (e.value m target σ) := by
  have hv := he.typed.type_valid
  cases h with
  | @var v home hd hh =>
    have hn := hvars v (by simp [Expr.vars, Expr.subterms]) home hh
    rw [show (Expr.var v).type = v.declared from if_pos hd]
    exact v.carries hd hh hn
  | @view v home mask s hd hh hs =>
    have hn := hvars v (by simp [Expr.vars, Expr.subterms]) home hh
    obtain ⟨-, s', hs', -, htype⟩ := Variable.viewType_valid hv
    obtain rfl : s = s' := by
      rw [hs] at hs'
      cases hs'
      rfl
    rw [show (Expr.view v mask).type = _ from htype]
    exact v.carries_view hd hh hs hn
  | @literal l =>
    have htype := Expr.type_literal hv
    rw [htype] at hv ⊢
    refine ⟨Operand.ofType_fits _ hv, fun k hk j hj => ?_, trivial⟩
    have hword := hload _ _ (d.literals.lookup_add l.bits)
    rw [Operand.getD_ofType _ hv (ValueType.lane_lt hk hj)]
    refine (hword _).trans ?_
    have h4 := ValueType.lanes_le_four hv
    rw [Lane.val_ofIndex (Nat.lt_of_lt_of_le (ValueType.lane_lt hk hj) h4)]
    rfl
  | @field f _ ho =>
    obtain ⟨htype, -⟩ := Expr.type_field hv
    refine ⟨hfits, fun k hk j hj => ?_, BufferField.operand_settled ho _⟩
    simp only [Expr.value, ho, htype]
    rfl
  | @external t text _ ho => exact absurd (Expr.mem_subterms_self _) (hext t text)
  | @select x p a ha =>
    subst ha
    have hx := (he.typed.child (x := x) (by simp [Expr.children])).type_valid
    obtain ⟨hmax, -, htype⟩ := Expr.type_select hv hx
    rw [htype]
    exact hargs.head.picked hmax
  | @threadId t ht hk =>
    obtain ⟨htype, herr⟩ := Expr.type_position hv
    obtain ⟨-, hw, -⟩ := position_spec herr
    have hthread := σ.carries_threadId (n := d.next) herr
    rw [htype] at hfits ⊢
    refine ⟨hfits, fun i hi j hj => ?_, trivial⟩
    have hlane := hthread.holds i hi 0 Nat.zero_lt_one
    rw [hw] at hj ⊢
    simp only [Expr.value, positionValue, ht, hk, if_true, if_false, show j = 0 by omega]
    exact hlane
  | load hl =>
    obtain ⟨htype, hholds⟩ := hl.holds (r := d.next) he hargs
    rw [htype] at hv ⊢
    exact ⟨Operand.ofType_fits _ hv, hholds, Nat.lt_succ_self _⟩
  | @window t ht hk =>
    obtain ⟨htype, herr⟩ := Expr.type_position hv
    obtain ⟨htv, hw, -, -, hfloat⟩ := position_spec herr
    obtain ⟨-, -, -, hd⟩ := positionError_eq_none herr
    have hsupplies := (σ.carries_window (n := d.next) herr).supplies (m := m) hfloat
    obtain ⟨-, hfloor⟩ := Machine.step_scratch (n := .floor) (Nat.le_refl d.next) hfloat
      (.inr (.inl ⟨rfl, rfl⟩)) (.cons hsupplies .nil)
    have hconvert := Machine.step_position (m := m) (r := d.next + 1) (Kind.fromFloat_lanewise hd)
      htv hw hfloat rfl rfl hfloor
    rw [htype]
    refine ⟨Operand.ofType_fits _ htv, hconvert.congr fun k _ j _ => ?_, ?_⟩
    · simp only [Expr.value, positionValue, ht, hk, if_false, List.map_cons, List.map_nil]
    · simp only [Operand.ofType, Place.Settled]
      omega
  | operation hf =>
    obtain ⟨hs, -, hr, -⟩ := Expr.overload?_spec hf
    have hholds := Expr.operation_holds d.next (d.next + 1) hf
      (.inr ⟨Nat.le_refl _, Nat.lt_succ_self _⟩) hargs
    rw [← hr]
    refine ⟨Operand.ofType_fits _ hs.result_valid, hholds, ?_⟩
    simp only [Operand.ofType, Place.Settled]
    omega

theorem Contents.Numbered.of_grows {table table' : LiteralTable} (h : σ.Numbered table')
    (hgrow : table.Grows table') : σ.Numbered table :=
  fun n bits hn => h n bits (hgrow.lookup hn)

theorem Draft.Extends.agree {d d' : Draft} {is : List Instruction} (h : d.Extends d' is)
    (m : Machine) (σ : Contents) : Contents.Agree d.next σ (m.run σ is) := by
  refine .of_run (fun i hi => ?_) σ
  obtain ⟨r, hr, hle, -⟩ := h.fresh i hi
  exact ⟨r, hr, hle⟩

namespace Expr

/-- The code of a tree leaves its value in the operand. -/
def Computes (target : Target) (d : Draft) (e : Expr) (o : Operand) (d' : Draft)
    (is : List Instruction) : Prop :=
  e.ExternalFree → e.VarsBelow d.next → ∀ (m : Machine) (σ : Contents), σ.Numbered d'.literals →
    (m.run σ is).Carries d'.next o e.type (e.value m target σ)

/-- The code of several trees leaves their values in the operands. -/
def ComputesAll (target : Target) (d : Draft) (xs : List Expr) (os : List Operand) (d' : Draft)
    (is : List Instruction) : Prop :=
  (∀ x ∈ xs, ExternalFree x) → (∀ x ∈ xs, VarsBelow d.next x) →
    ∀ (m : Machine) (σ : Contents), σ.Numbered d'.literals →
      (m.run σ is).CarriesAll d'.next os (xs.map type) (xs.map (value m target σ))

theorem ComputesAll.nil (d : Draft) : ComputesAll target d [] [] d [] :=
  fun _ _ _ _ _ => .nil

/-- Code that follows writes fresh registers: the operand before it keeps its value, and the trees
after it have the values they had. -/
theorem ComputesAll.cons {d d1 d2 : Draft} {x : Expr} {xs : List Expr} {o : Operand}
    {os : List Operand} {is js : List Instruction} (his : d.Extends d1 is)
    (hjs : d1.Extends d2 js) (hx : Computes target d x o d1 is)
    (hxs : ComputesAll target d1 xs os d2 js) :
    ComputesAll target d (x :: xs) (o :: os) d2 (is ++ js) := by
  intro hext hvars m σ hload
  have hσ := his.agree m σ
  have hhead := hx (hext x (by simp)) (hvars x (by simp)) m σ (hload.of_grows hjs.literals)
  have htail := hxs (fun y hy => hext y (by simp [hy]))
    (fun y hy => (hvars y (by simp [hy])).mono his.next) m (m.run σ is) (hσ.numbered hload)
  have hvalues : xs.map (value m target (m.run σ is)) = xs.map (value m target σ) :=
    List.map_congr_left fun y hy => value_congr hσ (hvars y (by simp [hy]))
  rw [hvalues] at htail
  rw [Machine.run_append]
  exact .cons ((hhead.agree (hjs.agree m _)).mono hjs.next) htail

theorem Computes.node {unit : UnitId} {d d1 d' : Draft} {e : Expr} {o : Operand}
    {args : List Operand} {k : Nat} {is js : List Instruction} (he : e.Accepted unit)
    (hdone : Emitted target d e o d' args d1 k is) (hjs : (e.opened d).Extends d1 js)
    (hargs : ComputesAll target (e.opened d) e.children args d1 js) :
    Computes target d e o d' (js ++ is) := by
  intro hext hvars m σ hload
  have hnext : d.next ≤ d1.next := by simpa using hjs.next
  have hσ : Contents.Agree d.next σ (m.run σ js) := by simpa using hjs.agree m σ
  have hload' : σ.Numbered d1.literals := hload.of_grows hdone.finished.extends.literals
  have hchildren := hargs (fun x hx => hext.child hx)
    (fun x hx => by simpa using hvars.child hx) m σ hload'
  have hvalues : e.children.map (value m target σ) =
      e.children.map (value m target (m.run σ js)) :=
    List.map_congr_left fun x hx => (value_congr hσ (hvars.child hx)).symm
  rw [hvalues] at hchildren
  rw [hdone.finished.literals] at hload
  rw [Machine.run_append, hdone.finished.next, ← value_congr hσ hvars]
  exact hdone.finished.form.carries he hext (hvars.mono hnext) hdone.fits (hσ.numbered hload)
    hchildren

theorem Accepted.emit_computes {unit : UnitId} {e : Expr} {d d' : Draft} {o : Operand}
    (he : e.Accepted unit) (hemit : e.emit target d = .ok (o, d')) :
    ∃ is, d.Extends d' is ∧ Computes target d e o d' is :=
  he.emit_induction ComputesAll.nil ComputesAll.cons Computes.node hemit

theorem emitAll_computes {unit : UnitId} {xs : List Expr} {d d' : Draft} {os : List Operand}
    (hxs : ∀ x ∈ xs, Accepted unit x) (hemit : emitAll target xs d = .ok (os, d')) :
    ∃ is, d.Extends d' is ∧ ComputesAll target d xs os d' is :=
  emitAll_induction ComputesAll.nil ComputesAll.cons Computes.node hxs hemit

end Expr

end ShaderIL
