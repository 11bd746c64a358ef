import ShaderIL.Expr.Build
import ShaderIL.Proofs.Assembler.Run
import ShaderIL.Proofs.Expr.Emission

/-!
# Validation and emission

A tree that the builders made (`Expr.Built`) and that reports no error is typed throughout, with one
exception: the lanes of a variable that a mask names may be three, which is a value of no type, and
no error says so. `Built.wellTyped_iff` states both directions. The point of the proof is that a node
over an untyped operand adds no error of its own and relies on the operand to report one; in
particular a constant lifted to the type of an untyped companion is an untyped leaf without an error,
so what is shown of its literals needs the companion first (`Built.literalsTyped`).
-/

namespace ShaderIL

/-- The mask names three lanes of the variable. -/
def Variable.ViewsThree (v : Variable) (mask : String) : Prop :=
  ∃ s, v.viewLanes mask = .ok s ∧ s.count = 3

theorem Variable.declared_valid {unit : Option UnitId} {v : Variable} (h : v.errors unit = []) :
    v.declared.valid = true := by
  unfold errors at h
  split_ifs at h with hv
  simpa using hv

theorem Swizzle.count_le {s : Swizzle} (hs : s.lanes.Nodup) {n : Nat} (h : s.maxLane < n) :
    s.count ≤ n := by
  have hsub : s.lanes.map Fin.val ⊆ List.range n := by
    intro i hi
    obtain ⟨l, hl, rfl⟩ := List.mem_map.mp hi
    exact List.mem_range.mpr (Nat.lt_of_le_of_lt (le_maxLane hl) h)
  have hle := (List.subperm_of_subset (hs.map Fin.val_injective) hsub).length_le
  simpa [count] using hle

/-- The lanes that a mask names make a vector unless they are three. -/
theorem Variable.viewType_valid_of_errors {v : Variable} {mask : String}
    (hv : v.declared.valid = true) (herr : v.viewError mask = none) (h3 : ¬ v.ViewsThree mask) :
    (v.viewType mask).valid = true := by
  unfold viewError at herr
  cases hs : v.viewLanes mask with
  | error e => simp [hs] at herr
  | ok s =>
    obtain ⟨hmax, hpos, h4, hnodup⟩ := viewLanes_spec hv hs
    have hle := Swizzle.count_le hnodup hmax
    have hne : s.count ≠ 3 := fun hc => h3 ⟨s, hs, hc⟩
    obtain ⟨hk, hc⟩ := v.declared.valid_iff.mp hv
    have hvec : (⟨v.declared.kind, s.count⟩ : ValueType).valid = true := by
      refine (ValueType.valid_iff _).mpr ⟨hk, ?_⟩
      simp only
      by_cases hd : v.declared.kind = .double
      · simp only [hd, ne_eq, not_true_eq_false, and_false, or_false] at hc ⊢
        omega
      · simp only [ne_eq, hd, not_false_eq_true, and_true] at hc ⊢
        omega
    have htype : v.type = v.declared := if_pos hv
    simp only [viewType, hs, htype, hv, if_true, ValueType.vector_eq hvec]
    exact hvec

theorem Input.type_valid {i : Input} (h : i.error = none) : i.type.valid = true := by
  unfold error at h
  split_ifs at h with hslot htype
  simp only [Bool.or_eq_true, Bool.not_eq_true', not_or] at htype
  simpa using htype.1

theorem globalError_eq_none {t : ValueType} (h : globalError t = none) : t.valid = true := by
  unfold globalError at h
  split_ifs at h with ht
  exact ht

theorem Literal.declared_valid {t : ValueType} {ks : List Host}
    (h : (ofValues t ks).error = none) : (ofValues t ks).declared.valid = true := by
  unfold ofValues at h ⊢
  split_ifs at h ⊢ with ht hlen
  · cases h
  · cases h
  · cases hw : wordsOf t.kind ks with
    | error cause => simp [hw, failed] at h
    | ok words => simpa using ht

namespace Expr

/-- No view in the tree names three lanes. -/
def ThreeLaneFree (e : Expr) : Prop := ∀ v mask, view v mask ∈ e.subterms → ¬ v.ViewsThree mask

/-- The literals of the tree that have no error have a type. -/
def LiteralsTyped (e : Expr) : Prop :=
  ∀ l, literal l ∈ e.subterms → l.error = none → l.declared.valid = true

/-- What the builders make from operands that are there. -/
inductive Built : Expr → Prop
  | unary {op x e} (hx : Built x) (h : mkUnary op x = .ok e) : Built e
  | convert {op t x e} (hx : Built x) (h : mkConvert op t x = .ok e) : Built e
  | binary {op x y e} (hx : Built x) (hy : Built y) (h : mkBinary op x y = .ok e) : Built e
  | ternary {op x y z e} (hx : Built x) (hy : Built y) (hz : Built z)
      (h : mkTernary op x y z = .ok e) : Built e
  | constRight {op x k e} (hx : Built x) (h : binaryConst op x k = .ok e) : Built e
  | constLeft {op k x e} (hx : Built x) (h : constBinary op k x = .ok e) : Built e
  /-- A multiply-add with up to two constants. -/
  | multiplyAdd {a b c e} (hargs : ∀ x ∈ argExprs [a, b, c], Built x)
      (hsome : argExprs [a, b, c] ≠ []) (h : Expr.multiplyAdd a b c = .ok e) : Built e
  | align {op x y k e} (hx : Built x) (hy : Built y) (h : alignConst op x y k = .ok e) : Built e
  | extract {x offset width e} (hx : Built x) (h : extractConst x offset width = .ok e) : Built e
  | merge {x y z w e} (hx : Built x) (hy : Built y) (hz : Built z) (hw : Built w)
      (h : mergeFour x y z w = .ok e) : Built e
  | select {x pattern e} (hx : Built x) (h : selectText x pattern = .ok e) : Built e
  | splat {x n e} (hx : Built x) (h : Expr.splat x n = .ok e) : Built e
  | const {t k} : Built (.literal (Literal.const t k))
  | vector {t values} : Built (.literal (Literal.ofValues t values))
  | external {t text} : Built (.external t text)
  | field {f} : Built (.field f)
  | var {v} : Built (.var v)
  | view {v mask} : Built (.view v mask)
  | sampleAt {i c e} (hc : Built c) (h : Expr.sampleAt i c = .ok e) : Built e
  | sampleXY {i x y e} (hx : Built x) (hy : Built y) (h : Expr.sampleXY i x y = .ok e) : Built e
  | element {t} {a : Address} (hbase : ∀ b, a.base = some b → Built b) : Built (a.element t)
  | position {t} : Built (.position t)

variable {unit : Option UnitId} {e x y z w : Expr}

theorem ThreeLaneFree.child (h : e.ThreeLaneFree) (hx : x ∈ e.children) : x.ThreeLaneFree :=
  fun v mask hv => h v mask (subterms_subset hx hv)

theorem LiteralsTyped.child (h : e.LiteralsTyped) (hx : x ∈ e.children) : x.LiteralsTyped :=
  fun l hl => h l (subterms_subset hx hl)

theorem LiteralsTyped.of_children (he : ∀ l, e ≠ .literal l)
    (h : ∀ x ∈ e.children, x.LiteralsTyped) : e.LiteralsTyped := by
  intro l hl
  rw [subterms_eq, List.mem_cons, List.mem_flatMap] at hl
  rcases hl with hl | ⟨x, hx, hl⟩
  · exact absurd hl.symm (he l)
  · exact h x hx l hl

/-! ### Trees without errors are typed -/

theorem resultType_valid_of_sound {f : Option Overload} (hsome : f ≠ none)
    (hsound : ∀ g, f = some g → g.Sound) : (resultType f).valid = true := by
  cases f with
  | none => exact absurd rfl hsome
  | some g => exact (hsound g rfl).result_valid

theorem overload_of_error {op : Opcode} {ts : List ValueType} {f : Option Overload}
    (herr : overloadError op ts f = none) (hts : ∀ t ∈ ts, t.valid = true) : f ≠ none := by
  rintro rfl
  unfold overloadError at herr
  split_ifs at herr with h
  exact h (by simpa using hts)

theorem externalOperand_valid {place : String → Place} {t : ValueType} {text : String}
    {o : Operand} (h : externalOperand place t text = .ok o) : t.valid = true := by
  unfold externalOperand at h
  split_ifs at h with ht
  exact ht

theorem element_type_valid {t : ValueType} {b : Expr} {offset : Int64}
    (herr : (Expr.element t b offset).errors unit = []) :
    (Expr.element t b offset).type.valid = true := by
  simp only [errors, List.append_eq_nil_iff, Option.toList_eq_nil_iff] at herr
  obtain ⟨hglobal, hb⟩ := herr
  split at hb
  · cases hb
  · rename_i hbase
    simpa [type, hglobal, hbase] using globalError_eq_none hglobal

theorem elementAt_type_valid {t : ValueType} {offset : Int64}
    (herr : (Expr.elementAt t offset).errors unit = []) :
    (Expr.elementAt t offset).type.valid = true := by
  have hnone := Option.toList_eq_nil_iff.mp herr
  simpa [type, hnone] using globalError_eq_none hnone

/-- A node without an error over typed children has a type, lane views of three lanes apart. -/
theorem type_valid_of_errors (herr : e.errors unit = [])
    (hchildren : ∀ x ∈ e.children, x.type.valid = true)
    (hliteral : ∀ l, e = .literal l → l.error = none → l.declared.valid = true)
    (hview : ∀ v mask, e = .view v mask → ¬ v.ViewsThree mask) : e.type.valid = true := by
  cases e with
  | absent => cases herr
  | unselected x cause => simp [errors] at herr
  | unary op x =>
    simp only [errors, List.append_eq_nil_iff, Option.toList_eq_nil_iff] at herr
    refine resultType_valid_of_sound ?_ fun g hg => (UnaryOp.sound hg).1
    exact overload_of_error herr.2 (by simpa [children] using hchildren)
  | convert op t x =>
    simp only [errors, List.append_eq_nil_iff, Option.toList_eq_nil_iff] at herr
    refine resultType_valid_of_sound ?_ fun g hg => (Conversion.sound hg).1
    have hx : x.type.valid = true := hchildren x (by simp [children])
    have hc := herr.2
    unfold conversionError at hc
    split_ifs at hc with hnone
    rintro heq
    simp [hx, heq] at hnone
  | binary op x y =>
    simp only [errors, List.append_eq_nil_iff, Option.toList_eq_nil_iff] at herr
    refine resultType_valid_of_sound ?_ fun g hg => (BinaryOp.sound hg).1
    exact overload_of_error herr.2 (by simpa [children] using hchildren)
  | ternary op x y z =>
    simp only [errors, List.append_eq_nil_iff, Option.toList_eq_nil_iff] at herr
    refine resultType_valid_of_sound ?_ fun g hg => (TernaryOp.sound hg).1
    exact overload_of_error herr.2 (by simpa [children] using hchildren)
  | select x p =>
    simp only [errors, List.append_eq_nil_iff, Option.toList_eq_nil_iff] at herr
    have hx : x.type.valid = true := hchildren x (by simp [children])
    obtain ⟨-, hvec⟩ := selectError_eq_none hx (by rw [herr.2]; rfl)
    simp only [type, herr.2, hx, Option.isSome_none, Bool.not_true, Bool.or_self,
      Bool.false_eq_true, if_false]
    rw [ValueType.vector_eq hvec]
    exact hvec
  | literal l =>
    have hnone : l.error = none := Option.toList_eq_nil_iff.mp herr
    simpa [type, Literal.type, hnone] using hliteral l rfl hnone
  | external t text =>
    have hnone := Option.toList_eq_nil_iff.mp herr
    obtain ⟨o, ho⟩ := ok_of_errorOf (by rw [hnone]; rfl)
    simpa [type, hnone] using externalOperand_valid ho
  | field f =>
    have hnone := Option.toList_eq_nil_iff.mp herr
    obtain ⟨o, ho⟩ := ok_of_errorOf (by rw [hnone]; rfl)
    simpa [type, hnone] using externalOperand_valid (BufferField.operand_eq ho)
  | var v =>
    have hd := Variable.declared_valid herr
    have htype : (var v).type = v.declared := if_pos hd
    rw [htype]
    exact hd
  | view v mask =>
    obtain ⟨hv, hmask⟩ := List.append_eq_nil_iff.mp herr
    exact Variable.viewType_valid_of_errors (Variable.declared_valid hv)
      (Option.toList_eq_nil_iff.mp hmask) (hview v mask rfl)
  | sample i c =>
    simp only [errors, List.append_eq_nil_iff, Option.toList_eq_nil_iff] at herr
    simpa [type, herr.1.1, herr.2] using Input.type_valid herr.1.1
  | element t b offset => exact element_type_valid herr
  | elementAt t offset => exact elementAt_type_valid herr
  | position t =>
    have hnone := Option.toList_eq_nil_iff.mp herr
    simpa [type, hnone] using (positionError_eq_none (by rw [hnone]; rfl)).1

/-- A tree without errors is typed if its literals are and it views no three lanes. -/
theorem wellTyped_of_errors (herr : e.errors unit = []) (hliterals : e.LiteralsTyped)
    (hviews : e.ThreeLaneFree) : e.WellTyped := by
  induction e using induction_children with
  | h e ih =>
    have hchildren : ∀ x ∈ e.children, x.WellTyped := fun x hx =>
      ih x hx (errors_child herr hx) (hliterals.child hx) (hviews.child hx)
    refine (wellTyped_iff e).mpr ⟨?_, hchildren⟩
    refine type_valid_of_errors herr (fun x hx => (hchildren x hx).type_valid) ?_ ?_
    · rintro l rfl
      exact hliterals l (mem_subterms_self _)
    · rintro v mask rfl
      exact hviews v mask (mem_subterms_self _)

theorem WellTyped.threeLaneFree (h : e.WellTyped) : e.ThreeLaneFree := by
  rintro v mask hv ⟨s, hs, hcount⟩
  obtain ⟨-, s', hs', hvalid, -⟩ := Variable.viewType_valid (h _ hv)
  cases hs.symm.trans hs'
  rw [hcount, ValueType.valid_iff] at hvalid
  simp at hvalid

/-! ### Trees that the builders make -/

theorem knownType_eq {t : ValueType} (h : x.knownType = .ok t) : t = x.type := by
  unfold knownType at h
  split_ifs at h
  cases h
  rfl

theorem mkUnary_eq {op : UnaryOp} (h : mkUnary op x = .ok e) : e = .unary op x := by
  obtain ⟨_, -, h⟩ := except_bind_eq_ok.mp h
  cases h
  rfl

theorem mkConvert_eq {op : Conversion} {t : ValueType} (h : mkConvert op t x = .ok e) :
    e = .convert op t x := by
  obtain ⟨_, -, h⟩ := except_bind_eq_ok.mp h
  cases h
  rfl

theorem mkBinary_eq {op : BinaryOp} (h : mkBinary op x y = .ok e) : e = .binary op x y := by
  obtain ⟨_, -, h⟩ := except_bind_eq_ok.mp h
  cases h
  rfl

theorem mkTernary_eq {op : TernaryOp} (h : mkTernary op x y z = .ok e) :
    e = .ternary op x y z := by
  obtain ⟨_, -, h⟩ := except_bind_eq_ok.mp h
  cases h
  rfl

theorem sampleAt_eq {i : Input} (h : Expr.sampleAt i x = .ok e) : e = .sample i x := by
  obtain ⟨_, -, h⟩ := except_bind_eq_ok.mp h
  cases h
  rfl

theorem unsignedLike_valid {t : ValueType} (hx : x.type.valid = true)
    (h : x.unsignedLike = .ok t) : t.valid = true := by
  obtain ⟨t', ht, h⟩ := except_bind_eq_ok.mp h
  cases h
  rw [knownType_eq ht, if_pos hx]
  have hv : (⟨.uint, x.type.components⟩ : ValueType).valid = true :=
    ValueType.valid_of_components hx (by decide) (by decide)
  rw [ValueType.vector_eq hv]
  exact hv

/-- A selection is one node, over the operand or over what the operand selects from. -/
theorem pick_eq (x : Expr) (p : Swizzle) : pick x p = .select x p ∨
    ∃ y q, x = .select y q ∧ selectError y.type q = none ∧ pick x p = .select y (q.compose p) := by
  cases x with
  | select y q =>
    simp only [pick]
    split_ifs with h
    · exact .inl rfl
    · simp only [Bool.or_eq_true, not_or, Option.not_isSome_iff_eq_none] at h
      exact .inr ⟨y, q, rfl, h.1, rfl⟩
  | _ => exact .inl rfl

theorem mem_argExprs : ∀ {l : List Arg}, x ∈ argExprs l ↔ Arg.expr x ∈ l
  | [] => by simp [argExprs]
  | .expr e :: l => by simp [argExprs, mem_argExprs (l := l)]
  | .const k :: l => by simp [argExprs, mem_argExprs (l := l)]

theorem widestFrom_valid : ∀ {es : List Expr} {t r : ValueType}, widestFrom t es = .ok r →
    (∀ y ∈ es, y.type.valid = true) → t.valid = true ∨ (t.components = 0 ∧ es ≠ []) →
      r.valid = true
  | [], t, r, h, _, ht => by
    cases h
    simpa using ht
  | y :: es, t, r, h, hes, ht => by
    obtain ⟨t', hy, h⟩ := except_bind_eq_ok.mp h
    rw [knownType_eq hy] at h
    have hyv := hes y (by simp)
    simp only [hyv, Bool.not_true, Bool.false_eq_true, if_false] at h
    refine widestFrom_valid h (fun z hz => hes z (by simp [hz])) (.inl ?_)
    have hpos := ValueType.components_pos hyv
    split_ifs with hc
    · exact hyv
    · rcases ht with ht | ht
      · exact ht
      · omega

/-! ### Literals of trees that the builders make -/

theorem literalsTyped_of_declared {l : Literal}
    (h : l.error = none → l.declared.valid = true) : (Expr.literal l).LiteralsTyped := by
  intro l' hl
  simp only [subterms, List.mem_singleton, literal.injEq] at hl
  rw [hl]
  exact h

/-- A constant lifted to a type is a typed literal, or has an error. -/
theorem literalsTyped_lift (k : Host) {t : ValueType} (ht : t.valid = true) :
    (Expr.literal (Literal.lift k t)).LiteralsTyped := by
  refine literalsTyped_of_declared fun h => ?_
  simp only [Literal.lift, ht, if_true] at h ⊢
  exact Literal.declared_valid h

theorem literalsTyped_ofArg {a : Arg} {t : ValueType} (ht : t.valid = true)
    (h : ∀ x, a = .expr x → x.LiteralsTyped) : (ofArg t a).LiteralsTyped := by
  cases a with
  | expr x => exact h x rfl
  | const k => exact literalsTyped_lift k ht

/-- A node without errors has typed literals if its children have, each under the same premises. -/
theorem LiteralsTyped.node (he : ∀ l, e ≠ .literal l) (herr : e.errors unit = [])
    (hviews : e.ThreeLaneFree)
    (h : ∀ x ∈ e.children, x.errors unit = [] → x.ThreeLaneFree → x.LiteralsTyped) :
    e.LiteralsTyped :=
  .of_children he fun x hx => h x hx (errors_child herr hx) (hviews.child hx)

theorem child_valid (herr : e.errors unit = []) (hviews : e.ThreeLaneFree) (hx : x ∈ e.children)
    (h : x.errors unit = [] → x.ThreeLaneFree → x.LiteralsTyped) : x.type.valid = true := by
  have hxerr := errors_child herr hx
  have hxviews := hviews.child hx
  exact (wellTyped_of_errors hxerr (h hxerr hxviews) hxviews).type_valid

theorem literalsTyped_pick {p : Swizzle} (herr : (pick x p).errors unit = [])
    (hviews : (pick x p).ThreeLaneFree)
    (h : x.errors unit = [] → x.ThreeLaneFree → x.LiteralsTyped) : (pick x p).LiteralsTyped := by
  rcases pick_eq x p with hp | ⟨y, q, rfl, hq, hp⟩
  · rw [hp] at herr hviews ⊢
    exact .node (by simp) herr hviews (by simpa [children] using h)
  · rw [hp] at herr hviews ⊢
    have hy : y ∈ (Expr.select y q).children := by simp [children]
    have hy' : y ∈ (Expr.select y (q.compose p)).children := by simp [children]
    refine .of_children (by simp) fun x hx => ?_
    obtain rfl : x = y := by simpa [children] using hx
    refine (h ?_ ?_).child hy
    · simpa [errors, hq] using errors_child herr hy'
    · intro v mask hv
      rw [subterms_eq, List.mem_cons, List.mem_flatMap] at hv
      rcases hv with hv | ⟨z, hz, hv⟩
      · cases hv
      · obtain rfl : z = x := by simpa [children] using hz
        exact hviews.child hy' v mask hv

/-- The literals of a tree without errors are typed: a lifted constant stands next to an operand that
is typed or has an error. -/
theorem Built.literalsTyped (h : e.Built) (herr : e.errors unit = []) (hviews : e.ThreeLaneFree) :
    e.LiteralsTyped := by
  induction h with
  | unary hx h ih =>
    obtain rfl := mkUnary_eq h
    exact .node (by simp) herr hviews (by simpa [children] using ih)
  | convert hx h ih =>
    obtain rfl := mkConvert_eq h
    exact .node (by simp) herr hviews (by simpa [children] using ih)
  | binary hx hy h ihx ihy =>
    obtain rfl := mkBinary_eq h
    exact .node (by simp) herr hviews (by simpa [children] using ⟨ihx, ihy⟩)
  | ternary hx hy hz h ihx ihy ihz =>
    obtain rfl := mkTernary_eq h
    exact .node (by simp) herr hviews (by simpa [children] using ⟨ihx, ihy, ihz⟩)
  | constRight hx h ih =>
    obtain ⟨t, ht, h⟩ := except_bind_eq_ok.mp h
    obtain rfl := mkBinary_eq h
    obtain rfl := knownType_eq ht
    have hv := child_valid herr hviews (by simp [children]) ih
    exact .node (by simp) herr hviews (by simpa [children] using ⟨ih, fun _ _ => literalsTyped_lift _ hv⟩)
  | constLeft hx h ih =>
    obtain ⟨t, ht, h⟩ := except_bind_eq_ok.mp h
    obtain rfl := mkBinary_eq h
    obtain rfl := knownType_eq ht
    have hv := child_valid herr hviews (by simp [children]) ih
    exact .node (by simp) herr hviews (by simpa [children] using ⟨fun _ _ => literalsTyped_lift _ hv, ih⟩)
  | @multiplyAdd a b c e hargs hsome h ih =>
    obtain ⟨t, ht, h⟩ := except_bind_eq_ok.mp h
    obtain rfl := mkTernary_eq h
    have hmem : ∀ x ∈ argExprs [a, b, c],
        x ∈ (Expr.ternary .mad (ofArg t a) (ofArg t b) (ofArg t c)).children := by
      intro x hx
      have hx : ofArg t (.expr x) ∈ [a, b, c].map (ofArg t) :=
        List.mem_map_of_mem (mem_argExprs.mp hx)
      exact hx
    have hv : t.valid = true := widestFrom_valid ht
      (fun x hx => child_valid herr hviews (hmem x hx) (ih x hx)) (.inr ⟨rfl, hsome⟩)
    refine .of_children (by simp) fun x hx => ?_
    obtain ⟨a', ha', rfl⟩ : ∃ a' ∈ [a, b, c], ofArg t a' = x := List.mem_map.mp hx
    refine literalsTyped_ofArg hv ?_
    rintro y rfl
    have hy := mem_argExprs.mpr ha'
    exact ih y hy (errors_child herr (hmem y hy)) (hviews.child (hmem y hy))
  | align hx hy h ihx ihy =>
    obtain ⟨t, ht, h⟩ := except_bind_eq_ok.mp h
    obtain rfl := mkTernary_eq h
    have hv := unsignedLike_valid (child_valid herr hviews (by simp [children]) ihx) ht
    exact .node (by simp) herr hviews
      (by simpa [children] using ⟨ihx, ihy, fun _ _ => literalsTyped_lift _ hv⟩)
  | extract hx h ih =>
    obtain ⟨t, ht, h⟩ := except_bind_eq_ok.mp h
    obtain rfl := mkTernary_eq h
    have hv := unsignedLike_valid (child_valid herr hviews (by simp [children]) ih) ht
    exact .node (by simp) herr hviews
      (by simpa [children] using ⟨ih, fun _ _ => literalsTyped_lift _ hv, fun _ _ => literalsTyped_lift _ hv⟩)
  | merge hx hy hz hw h ihx ihy ihz ihw =>
    obtain ⟨low, hlow, h⟩ := except_bind_eq_ok.mp h
    obtain ⟨high, hhigh, h⟩ := except_bind_eq_ok.mp h
    obtain rfl := mkBinary_eq h
    obtain rfl := mkBinary_eq hlow
    obtain rfl := mkBinary_eq hhigh
    refine .node (by simp) herr hviews ?_
    simp only [children, List.forall_mem_cons, List.not_mem_nil, false_imp_iff, implies_true, and_true]
    exact ⟨fun hl hl' => .node (by simp) hl hl' (by simpa [children] using ⟨ihx, ihy⟩),
      fun hh hh' => .node (by simp) hh hh' (by simpa [children] using ⟨ihz, ihw⟩)⟩
  | @select x pattern e hx h ih =>
    unfold selectText at h
    cases hp : Swizzle.parse pattern with
    | error cause =>
      rw [hp] at h
      cases h
      simp [errors] at herr
    | ok p =>
      rw [hp] at h
      obtain ⟨_, -, h⟩ := except_bind_eq_ok.mp h
      cases h
      exact literalsTyped_pick herr hviews ih
  | splat hx h ih =>
    unfold Expr.splat at h
    split_ifs at h
    · cases h
      simp [errors] at herr
    · obtain ⟨_, -, h⟩ := except_bind_eq_ok.mp h
      cases h
      exact literalsTyped_pick herr hviews ih
  | const => exact literalsTyped_of_declared Literal.declared_valid
  | vector => exact literalsTyped_of_declared Literal.declared_valid
  | external | field | var | view | position =>
    exact .of_children (by simp) (by simp [children])
  | sampleAt hc h ih =>
    obtain rfl := sampleAt_eq h
    exact .node (by simp) herr hviews (by simpa [children] using ih)
  | sampleXY hx hy h ihx ihy =>
    obtain ⟨coord, hcoord, h⟩ := except_bind_eq_ok.mp h
    obtain rfl := sampleAt_eq h
    obtain rfl := mkBinary_eq hcoord
    refine .node (by simp) herr hviews ?_
    simp only [children, List.forall_mem_cons, List.not_mem_nil, false_imp_iff, implies_true, and_true]
    exact fun hc hc' => .node (by simp) hc hc' (by simpa [children] using ⟨ihx, ihy⟩)
  | @element t a hbase ih =>
    unfold Address.element at herr hviews ⊢
    cases hb : a.base with
    | none => exact .of_children (by simp) (by simp [children])
    | some b =>
      rw [hb] at herr hviews
      exact .node (by simp) herr hviews (by simpa [children] using ih b hb)

/-- A tree that the builders made without errors is typed exactly if it views no three lanes. -/
theorem Built.wellTyped_iff (h : e.Built) (herr : e.errors unit = []) :
    e.WellTyped ↔ e.ThreeLaneFree :=
  ⟨WellTyped.threeLaneFree, fun hviews => wellTyped_of_errors herr (h.literalsTyped herr hviews) hviews⟩

end Expr

/-! ### Evaluation and assignment -/

namespace Assembler

variable {s : Assembler} {e : Expr}

theorem eval_ok (hphase : s.phase = .building) (hreport : s.report = none)
    (h : e.Accepted s.unit) : ∃ o s', s.eval e = .ok (.ok o, s') ∧ o.Fits e.type := by
  obtain ⟨o, d, hemit, hfits⟩ := h.emit_ok s.target s.draft
  refine ⟨o, { s with draft := d }, ?_, hfits⟩
  simp only [eval, hphase, hreport, h.clean, bne_self_eq_false, Bool.false_eq_true, if_false,
    List.isEmpty_nil, if_true, emitting_ok hemit]
  rfl

end Assembler

/-- A destination without errors has a type unless it is a view of three lanes. -/
theorem LValue.type_valid_iff {unit : UnitId} {dst : LValue}
    (herr : dst.toExpr.errors (some unit) = []) :
    dst.type.valid = true ↔ ∀ v mask, dst = .view v mask → ¬ v.ViewsThree mask := by
  cases dst with
  | var v =>
    have hd := Variable.declared_valid herr
    have htype : (LValue.var v).type = v.declared := if_pos hd
    simp [htype, hd]
  | view v mask =>
    obtain ⟨hv, hmask⟩ := List.append_eq_nil_iff.mp herr
    constructor
    · rintro hvalid _ _ ⟨rfl, rfl⟩ ⟨s, hs, hcount⟩
      obtain ⟨-, s', hs', hvalid, -⟩ := Variable.viewType_valid hvalid
      cases hs.symm.trans hs'
      rw [hcount, ValueType.valid_iff] at hvalid
      simp at hvalid
    · intro h
      exact Variable.viewType_valid_of_errors (Variable.declared_valid hv)
        (Option.toList_eq_nil_iff.mp hmask) (h v mask rfl)
  | element t a =>
    have hvalid : (LValue.element t a).type.valid = true := by
      simp only [LValue.type, toExpr, Address.element] at herr ⊢
      split at herr
      · exact Expr.elementAt_type_valid herr
      · exact Expr.element_type_valid herr
    simp [hvalid]

/-- **Validation is sound for evaluation, up to views of three lanes.** A tree made by the builders
that reports no error is typed throughout and evaluates to an operand of its type exactly if it views
no three lanes, and a destination without errors has a type exactly if it is not such a view. -/
theorem Assembler.validated_iff_threeLaneFree {s : Assembler} (hphase : s.phase = .building)
    (hreport : s.report = none) {e : Expr} (he : e.Built) :
    (e.errors (some s.unit) = [] →
      (((∀ x ∈ e.subterms, x.type.valid = true) ∧
          ∃ o s', s.eval e = .ok (.ok o, s') ∧ o.components = e.type.components ∧
            o.width = e.type.laneWidth ∧ o.lanes.count = e.type.components * e.type.laneWidth) ↔
        e.ThreeLaneFree)) ∧
      ∀ dst, LValue.assignErrors s.unit (some dst) e = [] →
        (dst.type.valid = true ↔ ∀ v mask, dst = .view v mask → ¬ v.ViewsThree mask) := by
  refine ⟨fun herr => ?_, fun dst herr => ?_⟩
  · rw [← he.wellTyped_iff herr]
    refine ⟨fun h => h.1, fun htyped => ⟨htyped, ?_⟩⟩
    obtain ⟨o, s', heval, hfits⟩ := eval_ok hphase hreport ⟨htyped, herr⟩
    exact ⟨o, s', heval, hfits.components_eq, hfits.width, hfits.count⟩
  · exact LValue.type_valid_iff (LValue.assignErrors_eq_nil herr).1

/-- The premises can be met: the root of two lanes of a variable is evaluated. -/
theorem eval_sqrt_of_twoLanes :
    let v : Variable := ⟨.float4, some ⟨⟨0, 1⟩, 0⟩⟩
    let s : Assembler := { phase := .building, generation := 1, draft := { next := 1 } }
    ∃ o s', s.eval (.unary .sqrt (.view v "xw")) = .ok (.ok o, s') ∧ o.components = 2 := by
  intro v s
  have hlanes : v.viewLanes "xw" = .ok ⟨[.x, .w]⟩ := by rfl
  have hmk : Expr.mkUnary .sqrt (.view v "xw") = .ok (.unary .sqrt (.view v "xw")) := by rfl
  have hbuilt := Expr.Built.unary .view hmk
  have herr : (Expr.unary .sqrt (.view v "xw")).errors (some s.unit) = [] := by rfl
  have hviews : (Expr.unary .sqrt (.view v "xw")).ThreeLaneFree := by
    rintro v' mask' hv ⟨p, hp, hcount⟩
    simp only [Expr.subterms, List.mem_cons, List.not_mem_nil, or_false, reduceCtorEq, false_or,
      Expr.view.injEq] at hv
    obtain ⟨rfl, rfl⟩ := hv
    rw [hlanes] at hp
    cases hp
    cases hcount
  have h := (Assembler.validated_iff_threeLaneFree (s := s) rfl rfl hbuilt).1 herr
  obtain ⟨-, o, s', heval, hcomp, -⟩ := h.mpr hviews
  have htype : (Expr.unary .sqrt (.view v "xw")).type.components = 2 := by rfl
  exact ⟨o, s', heval, hcomp.trans htype⟩

/-- Three lanes of a variable are a value of no type that reports no error, and an operation over
them has no overload to emit. -/
theorem eval_sqrt_of_threeLanes :
    let v : Variable := ⟨.float4, some ⟨⟨0, 1⟩, 0⟩⟩
    let s : Assembler := { phase := .building, generation := 1, draft := { next := 1 } }
    let e : Expr := .unary .sqrt (.view v "xyz")
    e.errors (some s.unit) = [] ∧ (Expr.view v "xyz").type.valid = false ∧
      s.eval e = .error .unresolved := by
  intro v s e
  exact ⟨rfl, rfl, rfl⟩

end ShaderIL
