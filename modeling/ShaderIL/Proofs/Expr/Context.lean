import ShaderIL.Proofs.Expr.Selection

/-!
# Untyped expressions in context

An expression without a type reports its errors itself, and what is built around it stays silent: an
operation over an untyped operand has no overload to miss, a constant lifted to the type of an
untyped operand has no range to leave, a selection from it, a sample at it and an address of it check
nothing. `Frame` lists the builders with one operand left open, `Frame.plug_of_untyped` is the step
for one of them, and `Context.plug_of_untyped` follows for every context.

A constant reports its range where its type does not come from the open operand. This is so for one
frame only, the alignment by a constant around its second operand: the constant is lifted to the
unsigned type of the first, so it is counted among the siblings of the open operand.
-/

namespace ShaderIL

theorem ValueType.standard_of_not_valid {t : ValueType} (h : ¬ t.valid = true) :
    t.standard = false := by
  simp [standard, h]

namespace Expr

variable {unit : Option UnitId} {e x y z : Expr} {es : List Expr}

/-- An expression that is there and has no type. -/
structure Untyped (e : Expr) : Prop where
  present : e.isPresent = true
  untyped : e.type = .invalid

theorem Untyped.not_valid (h : e.Untyped) : ¬ e.type.valid = true := by
  rw [h.untyped]
  simp

theorem isPresent_of_errors (h : x.errors unit = []) : x.isPresent = true := by
  cases x with
  | absent => cases h
  | _ => rfl

/-- One of the expressions, beside others without errors. -/
def Lone (unit : Option UnitId) (e : Expr) (es : List Expr) : Prop :=
  ∃ before after, es = before ++ e :: after ∧ ∀ x ∈ before ++ after, x.errors unit = []

theorem Lone.present (h : Lone unit e es) (he : e.Untyped) : ∀ x ∈ es, x.isPresent = true := by
  obtain ⟨before, after, rfl, hclean⟩ := h
  intro x hx
  by_cases hxe : x = e
  · rw [hxe]
    exact he.present
  · exact isPresent_of_errors (hclean x (by simpa [hxe] using hx))

theorem Lone.exists_untyped (h : Lone unit e es) (he : e.Untyped) :
    ∃ x ∈ es, ¬ x.type.valid = true := by
  obtain ⟨before, after, rfl, -⟩ := h
  exact ⟨e, by simp, he.not_valid⟩

theorem Lone.errors_eq (h : Lone unit e es) : es.flatMap (errors unit) = e.errors unit := by
  obtain ⟨before, after, rfl, hclean⟩ := h
  have hbefore : before.flatMap (errors unit) = [] :=
    List.flatMap_eq_nil_iff.mpr fun x hx => hclean x (by simp [hx])
  have hafter : after.flatMap (errors unit) = [] :=
    List.flatMap_eq_nil_iff.mpr fun x hx => hclean x (by simp [hx])
  rw [List.flatMap_append, List.flatMap_cons, hbefore, hafter, List.append_nil, List.nil_append]

/-! ### Builders over an untyped operand -/

/-- An untyped expression with the given errors is built. -/
def YieldsUntyped (unit : Option UnitId) (m : Except Fault Expr) (es : List Error) : Prop :=
  ∃ c, m = .ok c ∧ c.Untyped ∧ c.errors unit = es

theorem inspect_of_present : ∀ es : List Expr, (∀ e ∈ es, e.isPresent = true) →
    inspect es = .ok ()
  | [], _ => rfl
  | e :: es, h => by
    have hrest := inspect_of_present es fun y hy => h y (by simp [hy])
    rw [inspect, knownType_of_present (h e (by simp))]
    change (if e.type.valid = true then inspect es else .ok ()) = .ok ()
    rw [hrest, ite_self]

theorem mkUnary_of_untyped (op : UnaryOp) (he : e.Untyped) :
    YieldsUntyped unit (mkUnary op e) (e.errors unit) := by
  have hv := he.not_valid
  have hnone : op.overload? e.type = none := by
    simp [UnaryOp.overload?, ValueType.standard_of_not_valid hv]
  refine ⟨unary op e, ?_, ⟨rfl, ?_⟩, ?_⟩
  · rw [mkUnary, inspect_of_present [e] (by simp [he.present])]
    rfl
  · rw [type, hnone]
    rfl
  · simp [errors, hnone, overloadError, hv]

theorem mkConvert_of_untyped (op : Conversion) (t : ValueType) (he : e.Untyped) :
    YieldsUntyped unit (mkConvert op t e) (e.errors unit) := by
  have hv := he.not_valid
  have hnone : op.overload? t e.type = none := by
    simp [Conversion.overload?, ValueType.standard_of_not_valid hv]
  refine ⟨convert op t e, ?_, ⟨rfl, ?_⟩, ?_⟩
  · rw [mkConvert, inspect_of_present [e] (by simp [he.present])]
    rfl
  · rw [type, hnone]
    rfl
  · simp [errors, conversionError, hv]

theorem mkBinary_of_lone (op : BinaryOp) (he : e.Untyped) (h : Lone unit e [x, y]) :
    YieldsUntyped unit (mkBinary op x y) (e.errors unit) := by
  have hv : ¬ x.type.valid = true ∨ ¬ y.type.valid = true := by simpa using h.exists_untyped he
  have hnone : op.overload? x.type y.type = none := by
    rcases hv with hv | hv <;> simp [BinaryOp.overload?, ValueType.standard_of_not_valid hv]
  have herr : overloadError (.binary op) [x.type, y.type] none = none := by
    rcases hv with hv | hv <;> simp [overloadError, hv]
  refine ⟨binary op x y, ?_, ⟨rfl, ?_⟩, ?_⟩
  · rw [mkBinary, inspect_of_present _ (h.present he)]
    rfl
  · rw [type, hnone]
    rfl
  · rw [← h.errors_eq, errors, hnone, herr]
    simp

theorem mkTernary_of_lone (op : TernaryOp) (he : e.Untyped) (h : Lone unit e [x, y, z]) :
    YieldsUntyped unit (mkTernary op x y z) (e.errors unit) := by
  have hv : ¬ x.type.valid = true ∨ ¬ y.type.valid = true ∨ ¬ z.type.valid = true := by
    simpa using h.exists_untyped he
  have hnone : op.overload? x.type y.type z.type = none := by
    rcases hv with hv | hv | hv <;> simp [TernaryOp.overload?, ValueType.standard_of_not_valid hv]
  have herr : overloadError (.ternary op) [x.type, y.type, z.type] none = none := by
    rcases hv with hv | hv | hv <;> simp [overloadError, hv]
  refine ⟨ternary op x y z, ?_, ⟨rfl, ?_⟩, ?_⟩
  · rw [mkTernary, inspect_of_present _ (h.present he)]
    rfl
  · rw [type, hnone]
    rfl
  · rw [← h.errors_eq, errors, hnone, herr]
    simp

/-! ### Constants beside an untyped operand -/

theorem errors_lift_invalid (k : Host) : (ofArg .invalid (.const k)).errors unit = [] := rfl

theorem widestFrom_of_untyped : ∀ {es : List Expr} {t : ValueType},
    (∀ e ∈ es, e.isPresent = true) → (∃ e ∈ es, ¬ e.type.valid = true) →
      widestFrom t es = .ok .invalid
  | [], _, _, h => by simp at h
  | e :: es, t, hpresent, h => by
    rw [widestFrom, knownType_of_present (hpresent e (by simp))]
    by_cases he : e.type.valid = true
    · have hrest : ∃ y ∈ es, ¬ y.type.valid = true := by simpa [he] using h
      have hpresent' : ∀ y ∈ es, y.isPresent = true := fun y hy => hpresent y (by simp [hy])
      simp only [bind, Except.bind, he, Bool.not_true, Bool.false_eq_true, if_false]
      exact widestFrom_of_untyped hpresent' hrest
    · simp only [bind, Except.bind, he, Bool.not_false, if_true]
      rfl

theorem argExprs_cons (a : Arg) (as : List Arg) :
    argExprs (a :: as) = argExprs [a] ++ argExprs as := by
  cases a <;> rfl

theorem errors_ofArg_invalid : ∀ as : List Arg, (∀ x ∈ argExprs as, x.errors unit = []) →
    ∀ x ∈ as.map (ofArg .invalid), x.errors unit = []
  | [], _ => by simp
  | .expr y :: as, h => by
    have hrest := errors_ofArg_invalid as fun x hx => h x (by simp [argExprs, hx])
    simpa [ofArg, h y (by simp [argExprs])] using hrest
  | .const k :: as, h => by
    have hrest := errors_ofArg_invalid as h
    simpa [errors_lift_invalid] using hrest

/-- Constants lifted to no type are further places without errors. -/
theorem Lone.map_ofArg : ∀ as : List Arg, Lone unit e (argExprs as) →
    Lone unit e (as.map (ofArg .invalid))
  | [], ⟨before, after, h, _⟩ => by simp [argExprs] at h
  | .const k :: as, h => by
    obtain ⟨before, after, heq, hclean⟩ := Lone.map_ofArg as h
    refine ⟨ofArg .invalid (.const k) :: before, after, by rw [List.map_cons, heq]; rfl, ?_⟩
    simpa [errors_lift_invalid] using hclean
  | .expr y :: as, ⟨before, after, h, hclean⟩ => by
    cases before with
    | nil =>
      obtain ⟨rfl, rfl⟩ := List.cons_eq_cons.mp h
      exact ⟨[], as.map (ofArg .invalid), rfl, errors_ofArg_invalid as hclean⟩
    | cons z before =>
      obtain ⟨rfl, hrest⟩ := List.cons_eq_cons.mp h
      obtain ⟨before', after', heq, hclean'⟩ :=
        Lone.map_ofArg as ⟨before, after, hrest, fun x hx => hclean x (List.mem_cons_of_mem y hx)⟩
      refine ⟨y :: before', after', by rw [List.map_cons, heq]; rfl, ?_⟩
      simpa [hclean y (by simp)] using hclean'

theorem multiplyAdd_of_lone {a b c : Arg} (he : e.Untyped)
    (h : Lone unit e (argExprs [a, b, c])) :
    YieldsUntyped unit (multiplyAdd a b c) (e.errors unit) := by
  rw [multiplyAdd, widestFrom_of_untyped (h.present he) (h.exists_untyped he)]
  exact mkTernary_of_lone .mad he (h.map_ofArg [a, b, c])

/-- The unsigned type of the width of a type. -/
def unsignedType (t : ValueType) : ValueType :=
  if t.valid then .vector .uint t.components else .invalid

theorem unsignedLike_of_present (h : x.isPresent = true) :
    x.unsignedLike = .ok (unsignedType x.type) := by
  rw [unsignedLike, knownType_of_present h]
  rfl

theorem Untyped.knownType_eq (he : e.Untyped) : e.knownType = .ok .invalid := by
  rw [knownType_of_present he.present, he.untyped]

theorem Untyped.unsignedLike_eq (he : e.Untyped) : e.unsignedLike = .ok .invalid := by
  rw [unsignedLike_of_present he.present, he.untyped]
  rfl

/-! ### Frames -/

/-- A builder with one operand left open, and what it takes besides. -/
inductive Frame where
  | unary (op : UnaryOp)
  | convert (op : Conversion) (target : ValueType)
  | binaryLeft (op : BinaryOp) (y : Expr)
  | binaryRight (op : BinaryOp) (x : Expr)
  | ternaryFirst (op : TernaryOp) (y z : Expr)
  | ternarySecond (op : TernaryOp) (x z : Expr)
  | ternaryThird (op : TernaryOp) (x y : Expr)
  /-- A binary operation with a constant on the right. -/
  | constRight (op : BinaryOp) (k : Host)
  /-- A binary operation with a constant on the left. -/
  | constLeft (op : BinaryOp) (k : Host)
  /-- A multiply-add open in one place, with operands or constants in the others. -/
  | madFirst (b c : Arg)
  | madSecond (a c : Arg)
  | madThird (a b : Arg)
  /-- An alignment by a constant. -/
  | alignFirst (op : TernaryOp) (y : Expr) (k : Host)
  | alignSecond (op : TernaryOp) (x : Expr) (k : Host)
  /-- A bit-field extraction with a constant offset and width. -/
  | extract (offset width : Host)
  /-- A selection by a written pattern or a repetition. -/
  | selection (l : Link)

namespace Frame

/-- Fill the open operand. -/
def plug (e : Expr) : Frame → Except Fault Expr
  | unary op => mkUnary op e
  | convert op t => mkConvert op t e
  | binaryLeft op y => mkBinary op e y
  | binaryRight op x => mkBinary op x e
  | ternaryFirst op y z => mkTernary op e y z
  | ternarySecond op x z => mkTernary op x e z
  | ternaryThird op x y => mkTernary op x y e
  | constRight op k => binaryConst op e k
  | constLeft op k => constBinary op k e
  | madFirst b c => multiplyAdd (.expr e) b c
  | madSecond a c => multiplyAdd a (.expr e) c
  | madThird a b => multiplyAdd a b (.expr e)
  | alignFirst op y k => alignConst op e y k
  | alignSecond op x k => alignConst op x e k
  | extract offset width => extractConst e offset width
  | selection l => l.apply e

/-- The operands beside the open one. A constant is among them if its type is that of another one. -/
def siblings : Frame → List Expr
  | unary _ | convert _ _ | constRight _ _ | constLeft _ _ | extract _ _ | selection _ => []
  | binaryLeft _ y => [y]
  | binaryRight _ x => [x]
  | ternaryFirst _ y z => [y, z]
  | ternarySecond _ x z => [x, z]
  | ternaryThird _ x y => [x, y]
  | madFirst a b | madSecond a b | madThird a b => argExprs [a, b]
  | alignFirst _ y _ => [y]
  | alignSecond _ x k => [x, .literal (Literal.lift k (unsignedType x.type))]

/-- The patterns of the frame can be read. -/
def Readable : Frame → Prop
  | selection l => ∃ p, l.Reads p
  | _ => True

/-- Nothing but the open operand can have an error. -/
structure Clean (unit : Option UnitId) (f : Frame) : Prop where
  siblings : ∀ x ∈ f.siblings, x.errors unit = []
  readable : f.Readable

end Frame

variable {f : Frame}

namespace Frame

/-- What is built around an untyped expression is untyped and has its errors. -/
theorem plug_of_untyped (he : e.Untyped) (hf : f.Clean unit) :
    YieldsUntyped unit (f.plug e) (e.errors unit) := by
  have hsib := hf.siblings
  cases f with
  | unary op => exact mkUnary_of_untyped op he
  | convert op t => exact mkConvert_of_untyped op t he
  | binaryLeft op y => exact mkBinary_of_lone op he ⟨[], [y], rfl, hsib⟩
  | binaryRight op x => exact mkBinary_of_lone op he ⟨[x], [], rfl, hsib⟩
  | ternaryFirst op y z => exact mkTernary_of_lone op he ⟨[], [y, z], rfl, hsib⟩
  | ternarySecond op x z => exact mkTernary_of_lone op he ⟨[x], [z], rfl, hsib⟩
  | ternaryThird op x y => exact mkTernary_of_lone op he ⟨[x, y], [], rfl, hsib⟩
  | constRight op k =>
    rw [plug, binaryConst, he.knownType_eq]
    exact mkBinary_of_lone op he ⟨[], [_], rfl, by simp [errors_lift_invalid]⟩
  | constLeft op k =>
    rw [plug, constBinary, he.knownType_eq]
    exact mkBinary_of_lone op he ⟨[ofArg .invalid (.const k)], [], rfl, by simp [errors_lift_invalid]⟩
  | madFirst b c => exact multiplyAdd_of_lone he ⟨[], argExprs [b, c], rfl, hsib⟩
  | madSecond a c =>
    refine multiplyAdd_of_lone he ⟨argExprs [a], argExprs [c], argExprs_cons a _, ?_⟩
    rw [← argExprs_cons]
    exact hsib
  | madThird a b =>
    refine multiplyAdd_of_lone he ⟨argExprs [a, b], [], ?_, ?_⟩
    · rw [argExprs_cons a, argExprs_cons b, argExprs_cons a [b], List.append_assoc]
      rfl
    · rw [List.append_nil]
      exact hsib
  | alignFirst op y k =>
    rw [plug, alignConst, he.unsignedLike_eq]
    have hy : y.errors unit = [] := hsib y (by simp [Frame.siblings])
    exact mkTernary_of_lone op he ⟨[], [y, _], rfl, by simp [errors_lift_invalid, hy]⟩
  | alignSecond op x k =>
    have hx : x.errors unit = [] := hsib x (by simp [Frame.siblings])
    rw [plug, alignConst, unsignedLike_of_present (isPresent_of_errors hx)]
    exact mkTernary_of_lone op he ⟨[x], [_], rfl, hsib⟩
  | extract offset width =>
    rw [plug, extractConst, he.unsignedLike_eq]
    exact mkTernary_of_lone _ he ⟨[], [_, _], rfl, by simp [errors_lift_invalid]⟩
  | selection l =>
    obtain ⟨p, hp⟩ := hf.readable
    obtain ⟨htype, herrors⟩ := pick_of_untyped he.untyped p
    exact ⟨pick e p, Link.apply_eq he.present hp, ⟨isPresent_pick e p, htype⟩, herrors unit⟩

end Frame

/-! ### Contexts -/

/-- What an expression is used for in the end. -/
inductive Use where
  | value
  /-- The coordinate of a sample. -/
  | coordinate (i : Input)
  /-- The base of an address into the global buffer. -/
  | base (t : ValueType) (offset : Int64)

namespace Use

/-- Use an expression. -/
def plug (e : Expr) : Use → Except Fault Expr
  | value => .ok e
  | coordinate i => sampleAt i e
  | base t offset => .ok (Address.element t ⟨some e, offset⟩)

/-- The input or the view of the global buffer has no error. -/
def Valid : Use → Prop
  | value => True
  | coordinate i => i.error = none
  | base t _ => globalError t = none

theorem plug_of_untyped {u : Use} (he : e.Untyped) (hu : u.Valid) :
    ∃ c, u.plug e = .ok c ∧ c.errors unit = e.errors unit := by
  cases u with
  | value => exact ⟨e, rfl, rfl⟩
  | coordinate i =>
    have hi : i.error = none := hu
    refine ⟨sample i e, ?_, ?_⟩
    · rw [plug, sampleAt, he.knownType_eq]
      rfl
    · simp [errors, hi, coordinateError, he.not_valid]
  | base t offset =>
    have ht : globalError t = none := hu
    have haddress : e.addressError e.type = none := by
      rw [addressError, if_pos he.present, he.untyped]
      rfl
    refine ⟨element t e offset, rfl, ?_⟩
    simp [errors, ht, haddress]

end Use

/-- A place for an expression: the frames around it, the innermost first, and the use of the whole. -/
structure Context where
  frames : List Frame
  use : Use

namespace Context

/-- Fill the place. -/
def plug (e : Expr) (c : Context) : Except Fault Expr := do
  let x ← c.frames.foldlM Frame.plug e
  c.use.plug x

/-- Nothing but the expression in the place can have an error. -/
structure Clean (unit : Option UnitId) (c : Context) : Prop where
  frames : ∀ f ∈ c.frames, f.Clean unit
  use : c.use.Valid

end Context

/-- Frames around an untyped expression keep its errors as they are. -/
theorem foldlM_plug_of_untyped : ∀ (fs : List Frame) {e : Expr}, e.Untyped →
    (∀ f ∈ fs, f.Clean unit) → YieldsUntyped unit (fs.foldlM Frame.plug e) (e.errors unit)
  | [], e, he, _ => ⟨e, rfl, he, rfl⟩
  | f :: fs, e, he, hclean => by
    obtain ⟨x, hx, hux, hex⟩ := Frame.plug_of_untyped he (hclean f (by simp))
    obtain ⟨c, hc, huc, hec⟩ := foldlM_plug_of_untyped fs hux fun g hg => hclean g (by simp [hg])
    refine ⟨c, ?_, huc, hec.trans hex⟩
    rw [List.foldlM_cons, hx]
    exact hc

theorem Context.plug_of_untyped {c : Context} (he : e.Untyped) (hc : c.Clean unit) :
    ∃ x, c.plug e = .ok x ∧ x.errors unit = e.errors unit := by
  obtain ⟨y, hy, huy, hey⟩ := foldlM_plug_of_untyped c.frames he hc.frames
  obtain ⟨x, hx, hex⟩ := Use.plug_of_untyped huy hc.use
  refine ⟨x, ?_, hex.trans hey⟩
  rw [Context.plug, hy]
  exact hx

/-! ### Errors do not cascade -/

/-- **Errors do not cascade.** An untyped expression in a context where nothing else has an error is the
only one to report, in every unit. The errors of any node are those of its operands in order and its own
after them; where it reads from a resource, the error of that comes first. A node whose base can be no
address is left out. -/
theorem untyped_reports_alone :
    (∀ (unit : Option UnitId) (e : Expr) (c : Context), e.isPresent = true → e.type = .invalid →
      c.Clean unit → ∃ x, c.plug e = .ok x ∧ x.errors unit = e.errors unit) ∧
    ∀ e : Expr, e.children ≠ [] → e.baseError = none → ∃ own : Option Error, ∀ unit,
      e.errors unit = e.resourceError.toList ++ e.children.flatMap (errors unit) ++ own.toList :=
  ⟨fun _ _ _ hpresent huntyped hc => Context.plug_of_untyped ⟨hpresent, huntyped⟩ hc,
    fun _ h hbase => errors_in_order h hbase⟩

/-- The premises can be met: a root of an unsigned number is missing, and the product of it with a
constant out of range, aligned beside a variable, repeated and sampled at, reports that alone. -/
theorem missing_root_reports_alone :
    let v : Variable := ⟨.uint1, some ⟨⟨0, 1⟩, 0⟩⟩
    let root := unary .sqrt (.var v)
    let c : Context := ⟨[.constRight .mul (.word (-1)), .alignSecond .bitAlign (.var v) (.word 3),
      .madSecond (.const (.word (-1))) (.expr (.var v)), .selection (.repeated 2)],
      .coordinate ⟨0, .float4⟩⟩
    ∃ x, c.plug root = .ok x ∧ x.errors none = [.noOverload (.unary .sqrt) [.uint1]] := by
  intro v root c
  have hc : c.Clean none := by
    refine ⟨?_, rfl⟩
    simp only [c, List.forall_mem_cons, List.not_mem_nil, false_imp_iff, implies_true, and_true]
    refine ⟨⟨by simp [Frame.siblings], trivial⟩, ⟨by decide, trivial⟩, ⟨by decide, trivial⟩,
      ⟨by simp [Frame.siblings], ⟨_, by decide, by decide, rfl⟩⟩⟩
  obtain ⟨x, hx, herrors⟩ := untyped_reports_alone.1 none root c rfl rfl hc
  exact ⟨x, hx, herrors⟩

/-- Where a constant takes its type from a typed operand beside the untyped one, its own error is
reported too. -/
theorem constant_beside_untyped_reports :
    let v : Variable := ⟨.uint1, some ⟨⟨0, 1⟩, 0⟩⟩
    let root := unary .sqrt (.var v)
    let missing := Error.noOverload (.unary .sqrt) [.uint1]
    root.isPresent = true ∧ root.type = .invalid ∧ (Expr.var v).errors none = [] ∧
      root.errors none = [missing] ∧
      ∃ x, alignConst .bitAlign (.var v) root (.word (-1)) = .ok x ∧
        x.errors none = [missing, .literalRange .uint1 .outOfRange] := by
  intro v root missing
  refine ⟨rfl, rfl, rfl, rfl, _, rfl, ?_⟩
  decide

end Expr

end ShaderIL
