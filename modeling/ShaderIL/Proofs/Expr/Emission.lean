import ShaderIL.Proofs.Expr.Tree
import ShaderIL.Proofs.Operation.Soundness

/-!
# Emission of accepted trees

`Finish` lists once what the node's own part of emission can do: hand on an operand without any
code, load something into a fresh register with one line, round the window position and convert it,
or fill in the body of an overload. On an accepted tree emission never faults (`Accepted.emit_ok`),
and whatever it does is: emit the children, finish in one of these ways, return an operand that fits
the type of the tree (`Accepted.emitted`). Statements about the code of a tree are proved by
`Accepted.emit_induction`.
-/

namespace ShaderIL

/-! ### Overloads -/

namespace Overload

variable {f : Overload} {args : List Operand}

/-- The lines of an overload that writes to `dst` and takes its scratch registers from `start`. -/
def lines (f : Overload) (dst : Operand) (args : List Operand) (start : Nat) : List Instruction :=
  f.body.map fun p => p.filled ⟨dst, f.widened args, Draft.registersFrom f.result start f.scratch⟩

theorem emitInto_eq (hf : f.Sound) {dst : Operand} (hdst : dst.Fits f.result)
    (hargs : List.Forall₂ Operand.Fits args f.args) (d : Draft) :
    f.emitInto dst args d =
      .ok ((), (d.taken f.scratch).appended (f.lines dst args d.next)) := by
  have hscratch : ∀ x ∈ Draft.registersFrom f.result d.next f.scratch, x.Fits f.result := by
    intro x hx
    obtain ⟨i, -, rfl⟩ := List.mem_map.mp hx
    exact Operand.ofType_fits _ hf.result_valid
  have hemit := hf.emit_eq hdst hargs (Draft.length_registersFrom _ _ _) hscratch
  rw [emitInto, Emit.bind_of_ok (Draft.allocMany_eq _ _ d), Emit.bind_of_ok (Emit.lift_ok hemit _)]
  rfl

/-- The lines write lanes of the destination and scratch registers. -/
theorem lines_dst (hf : f.Sound) {dst : Operand} (hdst : dst.Fits f.result) {start : Nat}
    {i : Instruction} (hi : i ∈ f.lines dst args start) :
    (i.dst.place = dst.place ∧ ∀ l, i.dst.mask.has l = true → dst.mask.has l = true) ∨
      ∃ q < f.scratch, i.dst = (Operand.ofType (.temp (start + q)) f.result).destination := by
  obtain ⟨p, hp, rfl⟩ := List.mem_map.mp hi
  have hlegal := hf.target_legal p hp
  cases hs : p.target.scratch? with
  | none =>
    obtain ⟨hplace, hlanes⟩ := hf.holds_target (o := ⟨dst, _, _⟩) hdst hlegal hs
    refine .inl ⟨hplace, fun l hl => ?_⟩
    rw [Operand.has_mask]
    exact hlanes l ((Operand.has_mask _ l).mp hl)
  | some q =>
    cases ht : p.target with
    | result | resultComponent | resultSpan => simp [ht, PatternTarget.scratch?] at hs
    | scratch q' =>
      rw [ht] at hlegal
      refine .inr ⟨q', hlegal, ?_⟩
      simp only [Pattern.filled, ht, Operands.targetOperand, Operands.slot,
        List.getD_eq_getElem?_getD, Draft.getElem?_registersFrom _ _ hlegal, Option.getD_some]

theorem emitFresh_eq (hf : f.Sound) (hargs : List.Forall₂ Operand.Fits args f.args) (d : Draft) :
    Overload.emitFresh (some f) args d =
      .ok (Operand.ofType (.temp d.next) f.result,
        ((d.taken 1).taken f.scratch).appended
          (f.lines (Operand.ofType (.temp d.next) f.result) args (d.next + 1))) := by
  have hdst := Operand.ofType_fits (.temp d.next) hf.result_valid
  rw [Overload.emitFresh, Emit.bind_of_ok (Draft.alloc_eq _ d),
    Emit.bind_of_ok (emitInto_eq hf hdst hargs (d.taken 1))]
  rfl

end Overload

/-- A line that writes a fresh register. -/
def freshLine (m : Mnemonic) (t : ValueType) (source : Operand) (register : Nat) : Instruction :=
  ⟨m, (Operand.ofType (.temp register) t).destination, [source.source]⟩

theorem emitFresh_eq (m : Mnemonic) (t : ValueType) (source : Operand) (d : Draft) :
    emitFresh m t source d =
      .ok (Operand.ofType (.temp d.next) t,
        (d.taken 1).appended [freshLine m t source d.next]) := rfl

/-! ### What a node's own part does -/

/-- The leading components of a position register. -/
def leading (place : Place) (t : ValueType) (n : Nat) : Operand :=
  (Operand.ofType place t).picked ⟨(List.range n).map fun i => .ofIndex (0 + i)⟩

/-- The nodes that are one line into a fresh register: its mnemonic, type and source. -/
inductive Loads (target : Target) (args : List Operand) :
    Expr → Mnemonic → ValueType → Operand → Prop
  | sample {i c a} (ha : args = [a]) : Loads target args (.sample i c) (.sample i.slot) i.type a
  | element {t b offset a} (ha : args = [a]) :
    Loads target args (.element t b offset) .mov t (elementOperand t a offset)
  | elementAt {t offset} :
    Loads target args (.elementAt t offset) .mov t (elementAtOperand t offset)
  | threadId {t} (ht : target = .compute) (hk : t.kind = .float) :
    Loads target args (.position t) .itof t (leading .threadId .int4 t.components)
  | window {t} (ht : target ≠ .compute) (hk : t.kind = .float) :
    Loads target args (.position t) .floor t (leading .windowPosition .float4 t.components)

/-- What the node's own part of emission can do: its operand, the number of registers it takes and
the lines it adds. -/
inductive Finish (target : Target) (args : List Operand) (d : Draft) :
    Expr → Operand → Nat → List Instruction → Prop
  | var {v h} (hv : v.declared.valid = true) (hh : v.home = some h) :
    Finish target args d (.var v) (Operand.ofType (.temp h.register) v.declared) 0 []
  | view {v h mask s} (hv : v.declared.valid = true) (hh : v.home = some h)
      (hs : v.viewLanes mask = .ok s) :
    Finish target args d (.view v mask)
      ((Operand.ofType (.temp h.register) v.declared).picked s) 0 []
  | literal {l} :
    Finish target args d (.literal l)
      (Operand.ofType (.literal (d.literals.number l.bits)) l.declared) 0 []
  | field {f o} (ho : f.operand = .ok o) : Finish target args d (.field f) o 0 []
  | external {t text o} (ho : externalOperand .named t text = .ok o) :
    Finish target args d (.external t text) o 0 []
  | select {x p a} (ha : args = [a]) : Finish target args d (.select x p) (a.picked p) 0 []
  | threadId {t} (ht : target = .compute) (hk : t.kind ≠ .float) :
    Finish target args d (.position t) (leading .threadId .int4 t.components) 0 []
  | load {e m t source} (h : Loads target args e m t source) :
    Finish target args d e (Operand.ofType (.temp d.next) t) 1 [freshLine m t source d.next]
  | window {t} (ht : target ≠ .compute) (hk : t.kind ≠ .float) :
    Finish target args d (.position t) (Operand.ofType (.temp (d.next + 1)) t) 2
      [freshLine .floor ⟨.float, t.components⟩ (leading .windowPosition .float4 t.components)
          d.next,
        freshLine t.kind.fromFloat t (Operand.ofType (.temp d.next) ⟨.float, t.components⟩)
          (d.next + 1)]
  | operation {e f} (hf : e.overload? = some f) :
    Finish target args d e (Operand.ofType (.temp d.next) f.result) (1 + f.scratch)
      (f.lines (Operand.ofType (.temp d.next) f.result) args (d.next + 1))

/-- The literal table after a node. -/
def Expr.interned : Expr → LiteralTable → LiteralTable
  | .literal l, t => t.add l.bits
  | _, t => t

/-- The node's own part leads from one draft to another. -/
structure Finished (target : Target) (args : List Operand) (d : Draft) (e : Expr) (o : Operand)
    (k : Nat) (is : List Instruction) (d' : Draft) : Prop where
  form : Finish target args d e o k is
  next : d'.next = d.next + k
  code : d'.code.toList = d.code.toList ++ is.map Line.instruction
  counted : d'.instructions = d.instructions + Line.breaks (is.map Line.instruction)
  literals : d'.literals = e.interned d.literals

/-! ### Operands of leaves -/

theorem Operand.ofText_fits {place : String → Place} {text : String} {t : ValueType} {o : Operand}
    (ht : t.valid = true) (h : Operand.ofText place text t = .ok o) : o.Fits t := by
  have hid := Swizzle.count_identity (ValueType.lanes_le_four ht)
  unfold Operand.ofText at h
  cases hp : Operand.parseText text t with
  | error e => rw [hp] at h; cases h
  | ok r =>
    obtain ⟨name, lanes⟩ := r
    rw [hp] at h
    cases h
    refine ⟨?_, rfl⟩
    unfold Operand.parseText at hp
    split at hp
    · cases hp
      exact hid
    · split_ifs at hp
      · cases hp
        exact hid
      · rename_i after _ _
        cases hs : Swizzle.parse (String.ofList after) with
        | error e => rw [hs] at hp; cases hp
        | ok s =>
          rw [hs] at hp
          change (if s.count == t.lanes then _ else _) = _ at hp
          split_ifs at hp with hc
          cases hp
          exact beq_iff_eq.mp hc

theorem externalOperand_fits {place : String → Place} {t : ValueType} {text : String}
    {o : Operand} (h : externalOperand place t text = .ok o) : o.Fits t := by
  unfold externalOperand at h
  split_ifs at h with ht
  exact Operand.ofText_fits ht h

theorem externalOperand_place {place : String → Place} {t : ValueType} {text : String}
    {o : Operand} (h : externalOperand place t text = .ok o) : ∃ name, o.place = place name := by
  unfold externalOperand at h
  split_ifs at h
  unfold Operand.ofText at h
  obtain ⟨⟨name, lanes⟩, -, h⟩ := except_bind_eq_ok.mp h
  cases h
  exact ⟨name, rfl⟩

theorem BufferField.operand_eq {f : BufferField} {o : Operand} (h : f.operand = .ok o) :
    externalOperand f.placeOf f.type f.text = .ok o := by
  unfold operand at h
  split_ifs at h
  exact h

theorem ok_of_errorOf {α : Type} {x : Except Error α} (h : (errorOf x).isSome = false) :
    ∃ a, x = .ok a := by
  cases x with
  | error e => simp [errorOf] at h
  | ok a => exact ⟨a, rfl⟩

theorem orFault_ok {α : Type} {x : Except Error α} {a : α} (h : x = .ok a) (d : Draft) :
    (orFault x : Emit α) d = .ok (a, d) := by
  rw [h]
  rfl

theorem Variable.operand_ok {v : Variable} {h : Home} (hh : v.home = some h) (d : Draft) :
    v.operand d = .ok (Operand.ofType (.temp h.register) v.declared, d) := by
  rw [Variable.operand, hh]
  rfl

/-- The lanes that a mask names among the components of a variable. -/
theorem Variable.viewLanes_spec {v : Variable} {mask : String} {s : Swizzle}
    (hv : v.declared.valid = true) (h : v.viewLanes mask = .ok s) :
    s.maxLane < v.declared.components ∧ 0 < s.count ∧ s.count ≤ 4 ∧ s.lanes.Nodup := by
  unfold viewLanes at h
  cases hp : WriteMask.parse mask with
  | error e => rw [hp] at h; cases h
  | ok m =>
    rw [hp] at h
    change (if v.declared.valid && v.declared.components ≤ m.swizzle.maxLane then _ else _) = _ at h
    split_ifs at h with hb
    cases h
    simp only [hv, Bool.true_and, decide_eq_true_eq, Nat.not_le] at hb
    exact ⟨hb, WriteMask.count_pos_of_parse hp, m.count_swizzle_le, m.nodup_swizzle⟩

/-- A view with a type: its lanes are there and make a vector of the variable's kind. -/
theorem Variable.viewType_valid {v : Variable} {mask : String}
    (h : (v.viewType mask).valid = true) :
    v.declared.valid = true ∧ ∃ s, v.viewLanes mask = .ok s ∧
      (⟨v.declared.kind, s.count⟩ : ValueType).valid = true ∧
      v.viewType mask = ⟨v.declared.kind, s.count⟩ := by
  unfold viewType at h ⊢
  cases hs : v.viewLanes mask with
  | error e => simp [hs] at h
  | ok s =>
    simp only [hs] at h ⊢
    split_ifs at h ⊢ with ht
    · have hd : v.declared.valid = true := by
        by_contra hd
        simp [Variable.type, hd] at ht
      have htype : v.type = v.declared := if_pos hd
      rw [htype] at h ⊢
      obtain ⟨hk, hvec⟩ := ValueType.valid_vector h
      exact ⟨hd, s, rfl, hk, hvec⟩
    · simp at h

/-- A selection with a type: the pattern stays inside and makes a vector of the operand's kind. -/
theorem selectError_eq_none {t : ValueType} {p : Swizzle} (ht : t.valid = true)
    (h : (selectError t p).isSome = false) :
    p.maxLane < t.components ∧ (⟨t.kind, p.count⟩ : ValueType).valid = true := by
  simp only [selectError, ht, Bool.not_true, Bool.false_eq_true, if_false] at h
  split_ifs at h with hb hv
  · simp at h
  · simp at h
  · exact ⟨by omega, (ValueType.valid_vector (by simpa using hv)).1⟩

theorem positionError_eq_none {t : ValueType} (h : (positionError t).isSome = false) :
    t.valid = true ∧ t.components ≤ 2 ∧ t.kind ≠ .bool ∧ t.kind ≠ .double := by
  unfold positionError at h
  split_ifs at h with hc
  · simp at h
  · simp only [Bool.or_eq_true, decide_eq_true_eq, beq_iff_eq, Bool.not_eq_true', not_or] at hc
    obtain ⟨⟨⟨h2, hb⟩, hd⟩, hv⟩ := hc
    exact ⟨by simpa using hv, by omega, hb, hd⟩

theorem leading_eq (place : Place) {t : ValueType} (ht : t.valid = true) {n : Nat}
    (hn : (⟨t.kind, n⟩ : ValueType).valid = true) (hle : n ≤ t.components) :
    (Operand.ofType place t).span 0 n = .ok (leading place t n) ∧
      (leading place t n).Fits ⟨t.kind, n⟩ := by
  have hfits := Operand.ofType_fits place ht
  refine ⟨?_, ?_⟩
  · have hsum : 0 + n ≤ t.components := by omega
    have h := Operand.span_eq hfits ht hn hsum
    simpa [leading] using h
  · have h := Operand.picked_fits (p := ⟨(List.range n).map fun i => .ofIndex (0 + i)⟩) hfits
    simpa [leading, Swizzle.count] using h

namespace Expr

variable {unit : UnitId} {e : Expr} {f : Overload} {args : List Operand}

/-! ### Operation nodes -/

/-- The overload of a node is sound, takes the types of the children and gives the node's. -/
theorem overload?_spec (h : e.overload? = some f) :
    f.Sound ∧ f.args = e.children.map type ∧ f.result = e.type ∧ e.operands = e.children := by
  cases e with
  | unary op x =>
    obtain ⟨hs, ha⟩ := UnaryOp.sound h
    exact ⟨hs, ha, by simp only [overload?] at h; simp [type, resultType, h], rfl⟩
  | convert op t x =>
    obtain ⟨hs, ha, -⟩ := Conversion.sound h
    exact ⟨hs, ha, by simp only [overload?] at h; simp [type, resultType, h], rfl⟩
  | binary op x y =>
    obtain ⟨hs, ha⟩ := BinaryOp.sound h
    exact ⟨hs, ha, by simp only [overload?] at h; simp [type, resultType, h], rfl⟩
  | ternary op x y z =>
    obtain ⟨hs, ha⟩ := TernaryOp.sound h
    exact ⟨hs, ha, by simp only [overload?] at h; simp [type, resultType, h], rfl⟩
  | _ => simp [overload?] at h

/-- The operands hold the values of the children. -/
abbrev Fitting (args : List Operand) (xs : List Expr) : Prop :=
  List.Forall₂ (fun a x => Operand.Fits a (type x)) args xs

theorem Fitting.fits_args (hf : f.args = e.children.map type) (h : Fitting args e.children) :
    List.Forall₂ Operand.Fits args f.args := by
  rw [hf, List.forall₂_map_right_iff]
  exact h

theorem finish_operation (target : Target) (hf : e.overload? = some f)
    (hargs : Fitting args e.children) (d : Draft) :
    ∃ d', e.finish target args d = .ok (Operand.ofType (.temp d.next) f.result, d') ∧
      Finished target args d e (Operand.ofType (.temp d.next) f.result) (1 + f.scratch)
        (f.lines (Operand.ofType (.temp d.next) f.result) args (d.next + 1)) d' ∧
      (Operand.ofType (.temp d.next) f.result).Fits e.type := by
  obtain ⟨hs, ha, hr, -⟩ := overload?_spec hf
  have hemit := Overload.emitFresh_eq hs (Fitting.fits_args ha hargs) d
  have hnode : e.finish target args = Overload.emitFresh e.overload? args ∧
      e.interned d.literals = d.literals := by
    cases e with
    | unary | convert | binary | ternary => exact ⟨rfl, rfl⟩
    | _ => simp [overload?] at hf
  refine ⟨((d.taken 1).taken f.scratch).appended
    (f.lines (Operand.ofType (.temp d.next) f.result) args (d.next + 1)), ?_,
    ⟨.operation hf, ?_, Draft.appended_code_toList _ _, rfl, hnode.2.symm⟩, ?_⟩
  · rw [hnode.1, hf]
    exact hemit
  · simp only [Draft.appended_next, Draft.taken_next]
    omega
  · rw [← hr]
    exact Operand.ofType_fits _ hs.result_valid

theorem resultType_valid {f : Option Overload} (h : (resultType f).valid = true) :
    ∃ g, f = some g := by
  cases f with
  | none => simp [resultType] at h
  | some g => exact ⟨g, rfl⟩

theorem exists_overload (he : e.type.valid = true) (hop : e.operands ≠ []) :
    ∃ f, e.overload? = some f := by
  cases e with
  | unary | convert | binary | ternary => exact resultType_valid he
  | _ => simp [operands] at hop

/-! ### Types of nodes -/

theorem type_select {x : Expr} {p : Swizzle} (hv : (select x p).type.valid = true)
    (hx : x.type.valid = true) :
    p.maxLane < x.type.components ∧ (⟨x.type.kind, p.count⟩ : ValueType).valid = true ∧
      (select x p).type = ⟨x.type.kind, p.count⟩ := by
  have herr : (selectError x.type p).isSome = false := by
    by_contra hs
    simp [type, Bool.eq_true_of_not_eq_false hs] at hv
  obtain ⟨hmax, hvec⟩ := selectError_eq_none hx herr
  exact ⟨hmax, hvec, by simp [type, herr, hx, ValueType.vector_eq hvec]⟩

theorem type_literal {l : Literal} (hv : (literal l).type.valid = true) :
    (literal l).type = l.declared := by
  simp only [type, Literal.type] at hv ⊢
  split_ifs at hv ⊢
  · simp at hv
  · rfl

theorem type_field {f : BufferField} (hv : (field f).type.valid = true) :
    (field f).type = f.type ∧ ∃ o, f.operand = .ok o := by
  have herr : (errorOf f.operand).isSome = false := by
    by_contra hs
    simp [type, Bool.eq_true_of_not_eq_false hs] at hv
  exact ⟨by simp [type, herr], ok_of_errorOf herr⟩

theorem type_sample {i : Input} {c : Expr} (hv : (sample i c).type.valid = true)
    (hc : c.type.valid = true) : (sample i c).type = i.type ∧ c.type = .float2 := by
  simp only [type] at hv ⊢
  split_ifs at hv ⊢ with herr
  · simp at hv
  · simp only [Bool.or_eq_true, not_or, coordinateError, hc, Bool.true_and] at herr
    refine ⟨rfl, ?_⟩
    by_contra hne
    simp [hne] at herr

theorem type_element {t : ValueType} {b : Expr} {offset : Int64}
    (hv : (element t b offset).type.valid = true) : (element t b offset).type = t := by
  simp only [type] at hv ⊢
  split_ifs at hv ⊢
  · simp at hv
  · rfl

theorem type_elementAt {t : ValueType} {offset : Int64}
    (hv : (elementAt t offset).type.valid = true) : (elementAt t offset).type = t := by
  simp only [type] at hv ⊢
  split_ifs at hv ⊢
  · simp at hv
  · rfl

theorem type_position {t : ValueType} (hv : (position t).type.valid = true) :
    (position t).type = t ∧ (positionError t).isSome = false := by
  have herr : (positionError t).isSome = false := by
    by_contra hs
    simp [type, Bool.eq_true_of_not_eq_false hs] at hv
  exact ⟨by simp [type, herr], herr⟩

/-! ### All nodes -/

theorem finish_load (target : Target) {m : Mnemonic} {t : ValueType} {source : Operand} {d : Draft}
    (hl : Loads target args e m t source) (ht : t.valid = true) (htype : e.type = t) (d1 : Draft)
    (hfin : e.finish target args d = emitFresh m t source d1) (hnext : d1.next = d.next)
    (hcode : d1.code = d.code) (hcount : d1.instructions = d.instructions)
    (hlits : d1.literals = d.literals) :
    ∃ o k is d', e.finish target args d = .ok (o, d') ∧ Finished target args d e o k is d' ∧
      o.Fits e.type := by
  have hlit : e.interned d.literals = d.literals := by cases hl <;> rfl
  refine ⟨Operand.ofType (.temp d.next) t, 1, [freshLine m t source d.next],
    (d1.taken 1).appended [freshLine m t source d.next], ?_, ⟨.load hl, ?_, ?_, ?_, ?_⟩, ?_⟩
  · rw [hfin, emitFresh_eq, hnext]
  · simp [hnext]
  · simp [Draft.appended_code_toList, hcode]
  · simp [hcount]
  · simp [hlits, hlit]
  · rw [htype]
    exact Operand.ofType_fits _ ht

theorem finish_operand {target : Target} {d d' : Draft} {o : Operand}
    (hfin : e.finish target args d = .ok (o, d')) (hform : Finish target args d e o 0 [])
    (hfits : o.Fits e.type) (hnext : d'.next = d.next) (hcode : d'.code = d.code)
    (hcount : d'.instructions = d.instructions) (hlits : d'.literals = e.interned d.literals) :
    ∃ o k is d', e.finish target args d = .ok (o, d') ∧ Finished target args d e o k is d' ∧
      o.Fits e.type :=
  ⟨o, 0, [], d', hfin, ⟨hform, by simp [hnext], by simp [hcode], by simp [hcount], hlits⟩, hfits⟩

/-- The position of the work item, for a program of any target. -/
theorem finish_position (target : Target) {t : ValueType}
    (ht : (positionError t).isSome = false) (d : Draft) :
    ∃ o k is d', (position t).finish target args d = .ok (o, d') ∧
      Finished target args d (position t) o k is d' ∧ o.Fits (position t).type := by
  obtain ⟨hv, h2, hb, hd⟩ := positionError_eq_none ht
  have htype : (position t).type = t := by simp [type, ht]
  obtain ⟨hk, hc⟩ := t.valid_iff.mp hv
  have hint : (⟨.int, t.components⟩ : ValueType).valid = true :=
    ValueType.valid_of_components hv (by decide) (by decide)
  have hfloat : (⟨.float, t.components⟩ : ValueType).valid = true :=
    ValueType.valid_of_components hv (by decide) (by decide)
  obtain ⟨hthread, hthread'⟩ := leading_eq .threadId (t := .int4) (by decide) hint
    (by simp only [ValueType.int4]; omega)
  obtain ⟨hwindow, -⟩ := leading_eq .windowPosition (t := .float4) (by decide) hfloat
    (by simp only [ValueType.float4]; omega)
  by_cases htarget : target = .compute
  · have hstart : ∀ f : Operand → Emit Operand, ((liftM ((Operand.ofType .threadId .int4).span 0
        t.components) : Emit Operand) >>= f) d = f (leading .threadId .int4 t.components) d :=
      fun f => Emit.bind_of_ok (Emit.lift_ok hthread d)
    by_cases hkind : t.kind = .float
    · refine finish_load target (.threadId htarget hkind) hv htype d ?_ rfl rfl rfl rfl
      simp only [finish, emitPosition, htarget, hkind, beq_self_eq_true, if_true]
      exact hstart _
    · refine finish_operand ?_ (.threadId htarget hkind) ?_ rfl rfl rfl rfl
      · simp only [finish, emitPosition, htarget, beq_self_eq_true, if_true, beq_iff_eq, hkind,
          if_false]
        exact hstart _
      · rw [htype]
        exact hthread'.of_single_lanes (show Kind.int ≠ .double by decide) hd rfl
  · have hcompute : (target == .compute) = false := by simpa using htarget
    have hstart : ∀ f : Operand → Emit Operand, (Draft.usePosition >>= fun _ =>
        (liftM ((Operand.ofType .windowPosition .float4).span 0 t.components) : Emit Operand) >>=
          f) d = f (leading .windowPosition .float4 t.components) { d with usesPosition := true } :=
      fun f => Emit.bind_of_ok (Emit.lift_ok hwindow _)
    have hvec : ValueType.vector .float t.components = ⟨.float, t.components⟩ :=
      ValueType.vector_eq hfloat
    by_cases hkind : t.kind = .float
    · have ht' : (⟨.float, t.components⟩ : ValueType) = t := by rw [← hkind]
      refine finish_load target (.window htarget hkind) hv htype
        { d with usesPosition := true } ?_ rfl rfl rfl rfl
      simp only [finish, emitPosition, hcompute, Bool.false_eq_true, if_false, hkind,
        beq_self_eq_true, if_true, hvec, ht']
      exact hstart _
    · have hfloor := emitFresh_eq .floor ⟨.float, t.components⟩
        (leading .windowPosition .float4 t.components) { d with usesPosition := true }
      have hfin : (position t).finish target args d = emitFresh t.kind.fromFloat t
          (Operand.ofType (.temp d.next) ⟨.float, t.components⟩)
          (({ d with usesPosition := true }.taken 1).appended
            [freshLine .floor ⟨.float, t.components⟩
              (leading .windowPosition .float4 t.components) d.next]) := by
        simp only [finish, emitPosition, hcompute, Bool.false_eq_true, if_false, hvec, hkind,
          beq_iff_eq]
        rw [hstart, Emit.bind_of_ok hfloor]
      rw [emitFresh_eq] at hfin
      refine ⟨_, _, _, _, hfin, ⟨.window htarget hkind, rfl, ?_, ?_, rfl⟩, ?_⟩
      · simp [Draft.appended_code_toList]
      · simp [Nat.add_assoc]
      · rw [htype]
        exact Operand.ofType_fits _ hv

/-- The node's own part of an accepted tree never faults. -/
theorem Accepted.finish_ok (target : Target) (h : e.Accepted unit)
    (hargs : Fitting args e.children) (d : Draft) :
    ∃ o k is d', e.finish target args d = .ok (o, d') ∧ Finished target args d e o k is d' ∧
      o.Fits e.type := by
  have hv := h.typed.type_valid
  cases e with
  | absent | unselected => simp [type] at hv
  | unary | convert | binary | ternary =>
    obtain ⟨f, hf⟩ := exists_overload hv (by simp [operands])
    obtain ⟨d', hfin, hdone, hfits⟩ := finish_operation target hf hargs d
    exact ⟨_, _, _, d', hfin, hdone, hfits⟩
  | select x p =>
    obtain ⟨a, rfl, ha⟩ : ∃ a, args = [a] ∧ a.Fits x.type := by
      cases hargs with
      | cons ha hnil =>
        cases hnil
        exact ⟨_, rfl, ha⟩
    have hx := (h.typed.child (x := x) (by simp [children])).type_valid
    obtain ⟨hmax, hvec, htype⟩ := type_select hv hx
    refine finish_operand (Emit.lift_ok (Operand.select_eq ha hx hmax hvec) d) (.select rfl) ?_ rfl
      rfl rfl rfl
    rw [htype]
    exact Operand.picked_fits ha
  | literal l =>
    have htype := type_literal hv
    have hop : (literal l).finish target args d =
        .ok (Operand.ofType (.literal (d.literals.number l.bits)) l.declared,
          { d with literals := d.literals.add l.bits }) := rfl
    refine finish_operand hop .literal ?_ rfl rfl rfl rfl
    rw [htype] at hv ⊢
    exact Operand.ofType_fits _ hv
  | external t text =>
    have herr : (errorOf (externalOperand .named t text)).isSome = false := by
      by_contra hs
      simp [type, Bool.eq_true_of_not_eq_false hs] at hv
    obtain ⟨o, ho⟩ := ok_of_errorOf herr
    refine finish_operand (orFault_ok ho d) (.external ho) ?_ rfl rfl rfl rfl
    simp only [type, herr]
    exact externalOperand_fits ho
  | field f =>
    obtain ⟨htype, o, ho⟩ := type_field hv
    refine finish_operand (orFault_ok ho { d with buffers := d.buffers.insert f.slot f.size })
      (.field ho) ?_ rfl rfl rfl rfl
    rw [htype]
    exact externalOperand_fits (BufferField.operand_eq ho)
  | var v =>
    obtain ⟨hd, r, hh⟩ := Variable.errors_eq_nil h.clean
    have htype : (var v).type = v.declared := if_pos hd
    refine finish_operand (Variable.operand_ok hh d) (.var hd hh) ?_ rfl rfl rfl rfl
    rw [htype]
    exact Operand.ofType_fits _ hd
  | view v mask =>
    obtain ⟨-, r, hh⟩ := Variable.errors_eq_nil (List.append_eq_nil_iff.mp h.clean).1
    obtain ⟨hd, s, hs, hvec, htype⟩ := Variable.viewType_valid hv
    obtain ⟨hmax, -⟩ := Variable.viewLanes_spec hd hs
    have hfits := Operand.ofType_fits (.temp r) hd
    have hop : v.viewOperand mask d =
        .ok ((Operand.ofType (.temp r) v.declared).picked s, d) := by
      rw [Variable.viewOperand, Emit.bind_of_ok (orFault_ok hs d),
        Emit.bind_of_ok (Variable.operand_ok hh d)]
      exact Emit.lift_ok (Operand.select_eq hfits hd hmax hvec) d
    refine finish_operand hop (.view hd hh hs) ?_ rfl rfl rfl rfl
    rw [type, htype]
    exact Operand.picked_fits hfits
  | sample i c =>
    obtain ⟨a, rfl⟩ : ∃ a, args = [a] := List.length_eq_one_iff.mp hargs.length_eq
    obtain ⟨htype, -⟩ := type_sample hv (h.typed.child (by simp [children])).type_valid
    exact finish_load target (.sample rfl) (htype ▸ hv) htype
      { d with inputs := d.inputs.insert i.slot i.type } rfl rfl rfl rfl rfl
  | element t b offset =>
    obtain ⟨a, rfl⟩ : ∃ a, args = [a] := List.length_eq_one_iff.mp hargs.length_eq
    have htype := type_element hv
    exact finish_load target (.element rfl) (htype ▸ hv) htype d rfl rfl rfl rfl rfl
  | elementAt t offset =>
    have htype := type_elementAt hv
    exact finish_load target .elementAt (htype ▸ hv) htype { d with usesGlobal := true }
      rfl rfl rfl rfl rfl
  | position t => exact finish_position target (type_position hv).2 d

/-! ### Whole trees -/

theorem emitAll_ok (target : Target) : ∀ (xs : List Expr) (d : Draft),
    (∀ x ∈ xs, ∀ d, ∃ o d', x.emit target d = .ok (o, d') ∧ o.Fits x.type) →
      ∃ args d', emitAll target xs d = .ok (args, d') ∧ Fitting args xs
  | [], d, _ => ⟨[], d, rfl, .nil⟩
  | x :: xs, d, h => by
    obtain ⟨o, d1, hx, ho⟩ := h x (by simp) d
    obtain ⟨args, d2, hxs, hargs⟩ := emitAll_ok target xs d1 fun y hy => h y (by simp [hy])
    refine ⟨o :: args, d2, ?_, .cons ho hargs⟩
    rw [emitAll, Emit.bind_of_ok hx, Emit.bind_of_ok hxs]
    rfl

/-- How an accepted tree is emitted: the children first, then the node's own part. -/
structure Emitted (target : Target) (d : Draft) (e : Expr) (o : Operand) (d' : Draft)
    (args : List Operand) (d1 : Draft) (k : Nat) (is : List Instruction) : Prop where
  children : emitAll target e.children (e.opened d) = .ok (args, d1)
  fitting : Fitting args e.children
  finished : Finished target args d1 e o k is d'
  fits : o.Fits e.type

theorem Accepted.emit_step (target : Target) (h : e.Accepted unit) (d : Draft)
    (hx : ∀ x ∈ e.children, ∀ d, ∃ o d', x.emit target d = .ok (o, d') ∧ o.Fits x.type) :
    ∃ o d' args d1 k is, e.emit target d = .ok (o, d') ∧ Emitted target d e o d' args d1 k is := by
  obtain ⟨args, d1, hall, hargs⟩ := emitAll_ok target e.children (e.opened d) hx
  obtain ⟨o, k, is, d', hfin, hdone, hfits⟩ := h.finish_ok target hargs d1
  refine ⟨o, d', args, d1, k, is, ?_, ⟨hall, hargs, hdone, hfits⟩⟩
  rw [emit_eq target h.typed.ne_unselected, Emit.bind_of_ok hall]
  exact hfin

theorem Accepted.emit_ok (target : Target) (h : e.Accepted unit) (d : Draft) :
    ∃ o d', e.emit target d = .ok (o, d') ∧ o.Fits e.type := by
  induction e using induction_children generalizing d with
  | h e ih =>
    obtain ⟨o, d', _, _, _, _, hemit, hdone⟩ :=
      h.emit_step target d fun x hx d => ih x hx (h.child hx) d
    exact ⟨o, d', hemit, hdone.fits⟩

theorem Accepted.emitted {target : Target} {d d' : Draft} {o : Operand} (h : e.Accepted unit)
    (hemit : e.emit target d = .ok (o, d')) :
    ∃ args d1 k is, Emitted target d e o d' args d1 k is := by
  obtain ⟨o', d'', args, d1, k, is, hemit', hdone⟩ :=
    h.emit_step target d fun x hx d => (h.child hx).emit_ok target d
  rw [hemit] at hemit'
  cases hemit'
  exact ⟨args, d1, k, is, hdone⟩

theorem Accepted.emit_fits {target : Target} {d d' : Draft} {o : Operand} (h : e.Accepted unit)
    (hemit : e.emit target d = .ok (o, d')) : o.Fits e.type := by
  obtain ⟨_, _, _, _, hdone⟩ := h.emitted hemit
  exact hdone.fits

theorem emitAll_fitting {target : Target} {xs : List Expr} {d d' : Draft}
    (h : ∀ x ∈ xs, Accepted unit x) (hemit : emitAll target xs d = .ok (args, d')) :
    Fitting args xs := by
  obtain ⟨args', d'', hemit', hfit⟩ := emitAll_ok target xs d fun x hx d => (h x hx).emit_ok target d
  rw [hemit] at hemit'
  cases hemit'
  exact hfit

theorem grows_interned (e : Expr) (t : LiteralTable) : t.Grows (e.interned t) := by
  cases e with
  | literal l => exact .add t l.bits
  | _ => exact .refl t

end Expr

theorem Finish.fresh {args : List Operand} {e : Expr} {target : Target} {d : Draft} {o : Operand}
    {k : Nat} {is : List Instruction} (h : Finish target args d e o k is) :
    ∀ i ∈ is, ∃ r, i.dst.place = .temp r ∧ d.next ≤ r ∧ r < d.next + k := by
  cases h with
  | var | view | literal | field | external | select | threadId => simp
  | load h =>
    intro i hi
    rw [List.mem_singleton.mp hi]
    exact ⟨d.next, rfl, Nat.le_refl _, by omega⟩
  | window ht hk =>
    intro i hi
    simp only [List.mem_cons, List.not_mem_nil, or_false] at hi
    rcases hi with rfl | rfl
    · exact ⟨d.next, rfl, Nat.le_refl _, by omega⟩
    · exact ⟨d.next + 1, rfl, by omega, by omega⟩
  | operation hf =>
    intro i hi
    have hs := (Expr.overload?_spec hf).1
    rcases Overload.lines_dst hs (Operand.ofType_fits _ hs.result_valid) hi with
      ⟨hplace, -⟩ | ⟨q, hq, hdst⟩
    · exact ⟨d.next, hplace, Nat.le_refl _, by omega⟩
    · exact ⟨d.next + 1 + q, by rw [hdst]; rfl, by omega, by omega⟩

theorem Finished.extends {args : List Operand} {e : Expr} {target : Target} {d d' : Draft}
    {o : Operand} {k : Nat} {is : List Instruction} (h : Finished target args d e o k is d') :
    d.Extends d' is where
  next := by rw [h.next]; exact Nat.le_add_right _ _
  code := h.code
  counted := h.counted
  literals := by rw [h.literals]; exact e.grows_interned _
  fresh := by rw [h.next]; exact h.form.fresh

/-! ### Induction over an emission -/

namespace Expr

variable {unit : UnitId} {e : Expr} {target : Target}
  {P : Draft → Expr → Operand → Draft → List Instruction → Prop}
  {Q : Draft → List Expr → List Operand → Draft → List Instruction → Prop}

theorem emitAll_induction_of (nil : ∀ d, Q d [] [] d [])
    (cons : ∀ {d d1 d2 x xs o os is js}, Draft.Extends d d1 is → Draft.Extends d1 d2 js →
      P d x o d1 is → Q d1 xs os d2 js → Q d (x :: xs) (o :: os) d2 (is ++ js)) :
    ∀ {xs : List Expr} {d d' : Draft} {os : List Operand},
      (∀ x ∈ xs, ∀ d o d', x.emit target d = .ok (o, d') → ∃ is, d.Extends d' is ∧ P d x o d' is) →
      emitAll target xs d = .ok (os, d') → ∃ is, d.Extends d' is ∧ Q d xs os d' is
  | [], d, d', os, _, h => by
    cases h
    exact ⟨[], .refl d, nil d⟩
  | x :: xs, d, d', os, hx, h => by
    obtain ⟨o, d1, ho, h⟩ := Emit.bind_ok_iff.mp h
    obtain ⟨os', d2, hos, h⟩ := Emit.bind_ok_iff.mp h
    cases h
    obtain ⟨is, his, hP⟩ := hx x (by simp) d o d1 ho
    obtain ⟨js, hjs, hQ⟩ := emitAll_induction_of nil cons (fun y hy => hx y (by simp [hy])) hos
    exact ⟨is ++ js, his.trans hjs, cons his hjs hP hQ⟩

/-- What holds of an emission: `P` of a tree follows from `Q` of its children, `Q` of a list of trees
from `P` of each. -/
theorem Accepted.emit_induction (nil : ∀ d, Q d [] [] d [])
    (cons : ∀ {d d1 d2 x xs o os is js}, Draft.Extends d d1 is → Draft.Extends d1 d2 js →
      P d x o d1 is → Q d1 xs os d2 js → Q d (x :: xs) (o :: os) d2 (is ++ js))
    (node : ∀ {d e o d' args d1 k is js}, Accepted unit e → Emitted target d e o d' args d1 k is →
      Draft.Extends (e.opened d) d1 js → Q (e.opened d) e.children args d1 js →
      P d e o d' (js ++ is)) (h : e.Accepted unit) :
    ∀ {d o d'}, e.emit target d = .ok (o, d') → ∃ is, d.Extends d' is ∧ P d e o d' is := by
  induction e using induction_children with
  | h e ih =>
    intro d o d' hemit
    obtain ⟨args, d1, k, is, hdone⟩ := h.emitted hemit
    obtain ⟨js, hjs, hQ⟩ := emitAll_induction_of nil cons
      (fun x hx d o d' hx' => ih x hx (h.child hx) hx') hdone.children
    have hopened : d.Extends (e.opened d) [] :=
      ⟨⟨by simp, by simp, by simp, by simp [LiteralTable.Grows.refl]⟩, by simp⟩
    have hext := (hopened.trans hjs).trans hdone.finished.extends
    rw [List.nil_append] at hext
    exact ⟨js ++ is, hext, node h hdone hjs hQ⟩

theorem emitAll_induction (nil : ∀ d, Q d [] [] d [])
    (cons : ∀ {d d1 d2 x xs o os is js}, Draft.Extends d d1 is → Draft.Extends d1 d2 js →
      P d x o d1 is → Q d1 xs os d2 js → Q d (x :: xs) (o :: os) d2 (is ++ js))
    (node : ∀ {d e o d' args d1 k is js}, Accepted unit e → Emitted target d e o d' args d1 k is →
      Draft.Extends (e.opened d) d1 js → Q (e.opened d) e.children args d1 js →
      P d e o d' (js ++ is)) {xs : List Expr} {d d' : Draft} {os : List Operand}
    (h : ∀ x ∈ xs, Accepted unit x) (hemit : emitAll target xs d = .ok (os, d')) :
    ∃ is, d.Extends d' is ∧ Q d xs os d' is :=
  emitAll_induction_of nil cons (fun x hx _ _ _ => (h x hx).emit_induction nil cons node) hemit

theorem Accepted.emit_le {d d' : Draft} {o : Operand} (h : e.Accepted unit)
    (hemit : e.emit target d = .ok (o, d')) : d.next ≤ d'.next := by
  obtain ⟨is, his, -⟩ := h.emit_induction (P := fun _ _ _ _ _ => True)
    (Q := fun _ _ _ _ _ => True) (fun _ => trivial) (fun _ _ _ _ => trivial)
    (fun _ _ _ _ => trivial) hemit
  exact his.next

theorem emitAll_le {xs : List Expr} {d d' : Draft} {os : List Operand}
    (h : ∀ x ∈ xs, Accepted unit x) (hemit : emitAll target xs d = .ok (os, d')) :
    d.next ≤ d'.next := by
  induction xs generalizing d os with
  | nil =>
    cases hemit
    exact Nat.le_refl _
  | cons x xs ih =>
    obtain ⟨o, d1, ho, hemit⟩ := Emit.bind_ok_iff.mp hemit
    obtain ⟨os', d2, hos, hemit⟩ := Emit.bind_ok_iff.mp hemit
    cases hemit
    exact ((h x (by simp)).emit_le ho).trans (ih (fun y hy => h y (by simp [hy])) hos)

end Expr

end ShaderIL
