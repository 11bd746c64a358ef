import ShaderIL.Proofs.Expr.Context
import ShaderIL.Proofs.Expr.Names
import ShaderIL.Proofs.Machine.Retarget
import ShaderIL.Proofs.Number.Lifting

/-!
# Multiply-add

A multiply-add takes operands and constants in its three places. Its constants have the type of the
widest operand, and so has the result. Whatever the places hold, the code is that of the operands in
order and one line after it (`fusedLine`), which reads the three places, a scalar in every lane of the
result. `Placed` says what the places leave behind: an operand its code and its registers, a constant
an entry in the literal table and nothing else.

Which constants are accepted is `Host.Representable`. It is narrower than the range of the kind: an
integer of the host that looks like the mark of an overflow is refused.
-/

namespace ShaderIL

/-- The instruction that multiplies and adds numbers of a kind. -/
inductive Kind.FusedBy : Kind → Mnemonic → Prop
  | float : FusedBy .float .mad
  | double : FusedBy .double .dmad
  | int : FusedBy .int .imad
  | uint : FusedBy .uint .umad

theorem Kind.fusedBy_of_numeric {k : Kind} {m : Mnemonic}
    (h : Mnemonic.numeric .mad .dmad .imad .umad k = some m) : k.FusedBy m := by
  cases k <;> cases h <;> constructor

theorem Kind.FusedBy.text {k : Kind} {m : Mnemonic} (h : k.FusedBy m) :
    (k, m.text) ∈ [(.float, "mad"), (.double, "dmad"), (.int, "imad"), (.uint, "umad")] := by
  cases h <;> decide

theorem ValueType.eq_of_kind_components {t u : ValueType} (hk : t.kind = u.kind)
    (hc : t.components = u.components) : t = u := by
  obtain ⟨k, n⟩ := t
  obtain ⟨k', n'⟩ := u
  exact congrArg₂ mk hk hc

/-! ### Constants of one value -/

namespace Literal

variable {k : Host} {t : ValueType}

theorem wordsOf_replicate {kind : Kind} {ws : List UInt32} (h : k.words kind = .ok ws) (n : Nat) :
    wordsOf kind (List.replicate n k) = .ok (List.replicate n ws).flatten := by
  induction n with
  | zero => rfl
  | succ n ih =>
    rw [List.replicate_succ, wordsOf, h, ih]
    rfl

theorem const_error_iff (ht : t.valid = true) (hk : k.Proper) :
    (const t k).error = none ↔ k.Representable t.kind := by
  rw [← Host.words_ok_iff hk]
  obtain ⟨n, hn⟩ := Nat.exists_eq_succ_of_ne_zero (ValueType.components_pos ht).ne'
  constructor
  · intro h
    cases hw : k.words t.kind with
    | ok ws => exact ⟨ws, rfl⟩
    | error cause =>
      have hall : wordsOf t.kind (List.replicate t.components k) = .error cause := by
        rw [hn, List.replicate_succ, wordsOf, hw]
        rfl
      simp [const, ofValues, ht, hall, failed] at h
  · rintro ⟨ws, hws⟩
    simp [const, ofValues, ht, wordsOf_replicate hws]

theorem declared_const (t : ValueType) (k : Host) : (const t k).declared = t := by
  unfold const ofValues
  split_ifs
  · rfl
  · rfl
  · cases wordsOf t.kind (List.replicate t.components k) <;> rfl

theorem lift_of_valid (ht : t.valid = true) : lift k t = const t k := if_pos ht

end Literal

/-! ### The line -/

/-- An operand of one component in every lane of a wider result. -/
def Operand.spread (result t : ValueType) (x : Operand) : Operand :=
  if t.components = 1 ∧ 1 < result.components then x.picked (.broadcast .x result.components) else x

namespace Overload

variable {f : Overload} {a b c : ValueType}

/-- The overload of a multiply-add: its operands have one kind and are scalar or as wide as the
result, which has the type of one of them. -/
structure Fuses (f : Overload) (m : Mnemonic) (ts : List ValueType) : Prop where
  mnemonic : f.result.kind.FusedBy m
  body : f.body = [.direct m 3]
  args : f.args = ts
  splat : f.splat = true
  single : f.single = true
  scratch : f.scratch = 0
  result : f.result ∈ ts
  widths : ∀ t ∈ ts, t.kind = f.result.kind ∧
    (t.components = 1 ∨ t.components = f.result.components)

theorem multiplyAdd_fuses (h : multiplyAdd a b c = some f) : ∃ m, f.Fuses m [a, b, c] := by
  simp only [multiplyAdd, Option.bind_eq_bind, Option.bind_eq_some_iff] at h
  obtain ⟨q, hq, r, hr, m, hm, h⟩ := h
  cases h
  obtain ⟨hka, hkb, hqab, hwa, hwb⟩ := ValueType.widen_spec hq
  obtain ⟨hkq, hkc, hrqc, hwq, hwc⟩ := ValueType.widen_spec hr
  refine ⟨m, Kind.fusedBy_of_numeric hm, rfl, rfl, rfl, rfl, rfl, ?_, ?_⟩
  · rcases hrqc with rfl | rfl
    · rcases hqab with rfl | rfl <;> simp
    · simp
  · simp only [List.mem_cons, List.not_mem_nil, or_false, forall_eq_or_imp, forall_eq]
    refine ⟨⟨hka.trans hkq, ?_⟩, ⟨hkb.trans hkq, ?_⟩, hkc, hwc⟩ <;> omega

theorem Fuses.widenedOperand_eq {m : Mnemonic} {ts : List ValueType} (h : f.Fuses m ts)
    (t : ValueType) (x : Operand) : f.widenedOperand t x = Operand.spread f.result t x := by
  simp [widenedOperand, widens, Operand.spread, h.splat]

theorem Fuses.lines_eq {m : Mnemonic} (h : f.Fuses m [a, b, c]) (dst x y z : Operand) (start : Nat) :
    f.lines dst [x, y, z] start = [⟨m, dst.destination, [(Operand.spread f.result a x).source,
      (Operand.spread f.result b y).source, (Operand.spread f.result c z).source]⟩] := by
  have hwidened : f.widened [x, y, z] = [Operand.spread f.result a x, Operand.spread f.result b y,
      Operand.spread f.result c z] := by
    simp only [widened, h.args, List.zipWith_cons_cons, List.zipWith_nil_left, h.widenedOperand_eq]
  rw [lines, h.body, hwidened]
  rfl

end Overload

namespace Expr

variable {target : Target} {like : ValueType} {a b c : Arg} {as : List Arg}

/-! ### Places -/

/-- The type of a place whose constants have the given type. -/
def placeType (like : ValueType) : Arg → ValueType
  | .expr e => e.type
  | .const _ => like

/-- The line that multiplies the first two places and adds the third. -/
def fusedLine (m : Mnemonic) (like : ValueType) (as : List Arg) (dst : Operand)
    (xs : List Operand) : Instruction :=
  ⟨m, dst.destination,
    List.zipWith (fun a x => (Operand.spread like (placeType like a) x).source) as xs⟩

/-- Places are filled in order: an operand by its code, a constant by its literal register. -/
inductive Placed (target : Target) (like : ValueType) :
    List Arg → Draft → List Operand → Draft → Prop
  | nil {d} : Placed target like [] d [] d
  | expr {e as d o d₁ os d₂} (h : e.emit target d = .ok (o, d₁))
      (hrest : Placed target like as d₁ os d₂) : Placed target like (.expr e :: as) d (o :: os) d₂
  | const {k as d os d₂} (hrest : Placed target like as
      { d with literals := d.literals.add (Literal.const like k).bits } os d₂) :
    Placed target like (.const k :: as) d
      (Operand.ofType (.literal (d.literals.number (Literal.const like k).bits)) like :: os) d₂

theorem emit_const (hlike : like.valid = true) (k : Host) (d : Draft) :
    (ofArg like (.const k)).emit target d =
      .ok (Operand.ofType (.literal (d.literals.number (Literal.const like k).bits)) like,
        { d with literals := d.literals.add (Literal.const like k).bits }) := by
  have hdeclared := Literal.declared_const like k
  rw [ofArg, Literal.lift_of_valid hlike]
  generalize Literal.const like k = l at *
  subst hdeclared
  rfl

theorem emitAll_iff_placed (hlike : like.valid = true) : ∀ {as : List Arg} {d d' : Draft}
    {xs : List Operand}, emitAll target (as.map (ofArg like)) d = .ok (xs, d') ↔
      Placed target like as d xs d'
  | [], d, d', xs => by
    constructor
    · intro h
      cases h
      exact .nil
    · intro h
      cases h
      rfl
  | .expr e :: as, d, d', xs => by
    rw [List.map_cons, emitAll, Emit.bind_ok_iff]
    constructor
    · rintro ⟨o, d₁, ho, h⟩
      obtain ⟨os, d₂, hos, h⟩ := Emit.bind_ok_iff.mp h
      cases h
      exact .expr ho ((emitAll_iff_placed hlike).mp hos)
    · intro h
      cases h with
      | expr ho hrest =>
        refine ⟨_, _, ho, ?_⟩
        rw [Emit.bind_of_ok ((emitAll_iff_placed hlike).mpr hrest)]
        rfl
  | .const k :: as, d, d', xs => by
    rw [List.map_cons, emitAll, Emit.bind_of_ok (emit_const hlike k d), Emit.bind_ok_iff]
    constructor
    · rintro ⟨os, d₂, hos, h⟩
      cases h
      exact .const ((emitAll_iff_placed hlike).mp hos)
    · intro h
      cases h with
      | const hrest => exact ⟨_, _, (emitAll_iff_placed hlike).mpr hrest, rfl⟩

theorem Operand.spread_place (result t : ValueType) (x : Operand) :
    (Operand.spread result t x).place = x.place := by
  unfold Operand.spread
  split_ifs <;> rfl

/-- If no name in the operands breaks a line, the fused instruction is one line of text. -/
theorem Placed.singleLine (hlike : like.valid = true) {d d' : Draft} {xs : List Operand}
    (h : Placed target like as d xs d') (hnames : ∀ x ∈ argExprs as, x.FlatNames) (m : Mnemonic)
    (r : Nat) : Text.SingleLine
      (Line.instruction (fusedLine m like as (Operand.ofType (.temp r) like) xs)).text := by
  have hleaves : ∀ x ∈ as.map (ofArg like), x.LeavesIn .flat := by
    intro x hx
    obtain ⟨a, ha, rfl⟩ := List.mem_map.mp hx
    cases a with
    | expr e => exact (hnames e (mem_argExprs.mpr ha)).leaves
    | const k => exact FlatNames.leaves ⟨by simp [ofArg, subterms], by simp [ofArg, subterms]⟩
  have hflat := (emitAll_stays hleaves ((emitAll_iff_placed hlike).mpr h)).operands
  refine Instruction.singleLine _ (PlaceSort.flat.code_of_operand _ (PlaceSort.flat.temp r)) ?_
  intro s hs
  simp only [fusedLine, ← List.map_uncurry_zip_eq_zipWith, List.mem_map] at hs
  obtain ⟨⟨a, x⟩, hax, rfl⟩ := hs
  have hplace : (Function.uncurry (fun a x => (Operand.spread like (placeType like a) x).source)
      (a, x)).place = x.place := Operand.spread_place like _ x
  rw [hplace]
  exact hflat x (List.of_mem_zip hax).2

theorem errors_const (hlike : like.valid = true) (unit : Option UnitId) {k : Host}
    (hk : k.Proper) :
    (ofArg like (.const k)).errors unit = [] ↔ k.Representable like.kind := by
  simp only [ofArg, errors, Literal.lift_of_valid hlike, Option.toList_eq_nil_iff,
    Literal.const_error_iff hlike hk]

/-- The places have no errors exactly if the operands have none and the constants are representable. -/
theorem errors_places (hlike : like.valid = true) (unit : Option UnitId) {as : List Arg}
    (hproper : ∀ k, Arg.const k ∈ as → k.Proper) :
    (∀ p ∈ as, (ofArg like p).errors unit = []) ↔ (∀ x ∈ argExprs as, x.errors unit = []) ∧
      ∀ k, Arg.const k ∈ as → k.Representable like.kind := by
  constructor
  · intro h
    exact ⟨fun x hx => h (.expr x) (mem_argExprs.mp hx),
      fun k hk => (errors_const hlike unit (hproper k hk)).mp (h (.const k) hk)⟩
  · rintro ⟨hexprs, hconsts⟩ p hp
    cases p with
    | expr x => exact hexprs x (mem_argExprs.mpr hp)
    | const k => exact (errors_const hlike unit (hproper k hp)).mpr (hconsts k hp)

theorem type_ofArg (hlike : like.valid = true) {unit : Option UnitId}
    (h : (ofArg like a).errors unit = []) : (ofArg like a).type = placeType like a := by
  cases a with
  | expr e => rfl
  | const k =>
    simp only [ofArg, errors, Literal.lift_of_valid hlike, Option.toList_eq_nil_iff] at h
    simp [ofArg, type, Literal.lift_of_valid hlike, Literal.type, h, Literal.declared_const, placeType]

theorem placeType_valid (hlike : like.valid = true)
    (htyped : ∀ x ∈ argExprs as, x.type.valid = true) (ha : a ∈ as) :
    (placeType like a).valid = true := by
  cases a with
  | expr e => exact htyped e (mem_argExprs.mpr ha)
  | const k => exact hlike

/-! ### The type of the constants -/

theorem widestFrom_spec : ∀ (es : List Expr) (t : ValueType), (∀ x ∈ es, x.type.valid = true) →
    ∃ w, widestFrom t es = .ok w ∧ (w = t ∨ ∃ x ∈ es, x.type = w) ∧
      t.components ≤ w.components ∧ ∀ x ∈ es, x.type.components ≤ w.components
  | [], t, _ => ⟨t, rfl, .inl rfl, le_rfl, by simp⟩
  | e :: es, t, h => by
    have he := h e (by simp)
    obtain ⟨w, hw, hmem, hle, hall⟩ := widestFrom_spec es
      (if t.components < e.type.components then e.type else t) fun x hx => h x (by simp [hx])
    refine ⟨w, ?_, ?_, ?_, ?_⟩
    · rw [widestFrom, knownType_of_present (isPresent_of_valid he)]
      simpa [bind, Except.bind, he] using hw
    · rcases hmem with hmem | ⟨x, hx, hxw⟩
      · split_ifs at hmem
        · exact .inr ⟨e, by simp, hmem.symm⟩
        · exact .inl hmem
      · exact .inr ⟨x, by simp [hx], hxw⟩
    · split_ifs at hle <;> omega
    · intro x hx
      rcases List.mem_cons.mp hx with rfl | hx
      · split_ifs at hle <;> omega
      · exact hall x hx

/-- The widest operand: one of them, and no other is wider. -/
structure Widest (like : ValueType) (es : List Expr) : Prop where
  mem : ∃ x ∈ es, x.type = like
  le : ∀ x ∈ es, x.type.components ≤ like.components

theorem exists_widest {es : List Expr} (hne : es ≠ []) (h : ∀ x ∈ es, x.type.valid = true) :
    ∃ like, widestFrom .invalid es = .ok like ∧ Widest like es := by
  obtain ⟨like, hlike, hmem, -, hle⟩ := widestFrom_spec es .invalid h
  refine ⟨like, hlike, ?_, hle⟩
  rcases hmem with rfl | hmem
  · obtain ⟨x, hx⟩ := List.exists_mem_of_ne_nil es hne
    have hpos := ValueType.components_pos (h x hx)
    have hzero : x.type.components ≤ 0 := hle x hx
    omega
  · exact hmem

/-- The result of a multiply-add whose constants have the type of the widest operand has that type. -/
theorem Widest.result_eq {f : Overload} {m : Mnemonic} (hw : Widest like (argExprs as))
    (htyped : ∀ x ∈ argExprs as, x.type.valid = true)
    (hf : f.Fuses m (as.map (placeType like))) : f.result = like := by
  obtain ⟨p, hp, hresult⟩ := List.mem_map.mp hf.result
  cases p with
  | const k => exact hresult.symm
  | expr x =>
    have hx := mem_argExprs.mpr hp
    have hle := hw.le x hx
    have hpos := ValueType.components_pos (htyped x hx)
    obtain ⟨y, hy, hylike⟩ := hw.mem
    obtain ⟨hkind, hwidth⟩ := hf.widths like
      (List.mem_map.mpr ⟨.expr y, mem_argExprs.mp hy, hylike⟩)
    have hxr : x.type = f.result := hresult
    rw [hxr] at hle hpos
    exact ValueType.eq_of_kind_components hkind.symm (by omega)

/-! ### The node -/

theorem multiplyAdd_eq (hlike : widestFrom .invalid (argExprs [a, b, c]) = .ok like)
    (htyped : ∀ x ∈ argExprs [a, b, c], x.type.valid = true) :
    multiplyAdd a b c =
      .ok (ternary .mad (ofArg like a) (ofArg like b) (ofArg like c)) := by
  have hpresent : ∀ p ∈ [a, b, c], (ofArg like p).isPresent = true := by
    intro p hp
    cases p with
    | expr e => exact isPresent_of_valid (htyped e (mem_argExprs.mpr hp))
    | const k => rfl
  rw [multiplyAdd, hlike]
  change mkTernary .mad _ _ _ = _
  rw [mkTernary, inspect_of_present _ (by simpa using hpresent)]
  rfl

/-- Validation of a multiply-add: its operands, its constants and the overload at their types. -/
theorem multiplyAdd_errors_iff (hlike : like.valid = true)
    (htyped : ∀ x ∈ argExprs [a, b, c], x.type.valid = true)
    (hproper : ∀ k, Arg.const k ∈ [a, b, c] → k.Proper) (unit : Option UnitId) :
    (ternary .mad (ofArg like a) (ofArg like b) (ofArg like c)).errors unit = [] ↔
      (∀ x ∈ argExprs [a, b, c], x.errors unit = []) ∧
        (TernaryOp.mad.overload? (placeType like a) (placeType like b)
          (placeType like c)).isSome = true ∧
        ∀ k, Arg.const k ∈ [a, b, c] → k.Representable like.kind := by
  have hvalid : ∀ p ∈ [a, b, c], (placeType like p).valid = true :=
    fun p hp => placeType_valid hlike htyped hp
  have hover : ∀ f : Option Overload, overloadError (.ternary .mad)
      [placeType like a, placeType like b, placeType like c] f = none ↔ f.isSome = true := by
    intro f
    have hall : [placeType like a, placeType like b, placeType like c].all ValueType.valid = true := by
      simpa using hvalid
    cases f <;> simp [overloadError, hall]
  have hplaces := errors_places hlike unit hproper
  simp only [errors, List.append_eq_nil_iff, Option.toList_eq_nil_iff]
  constructor
  · rintro ⟨⟨⟨ha, hb⟩, hc⟩, hnone⟩
    rw [type_ofArg hlike ha, type_ofArg hlike hb, type_ofArg hlike hc, hover] at hnone
    obtain ⟨hexprs, hconsts⟩ := hplaces.mp (by simp [ha, hb, hc])
    exact ⟨hexprs, hnone, hconsts⟩
  · rintro ⟨hexprs, hsome, hconsts⟩
    have hclean := hplaces.mpr ⟨hexprs, hconsts⟩
    have ha := hclean a (by simp)
    have hb := hclean b (by simp)
    have hc := hclean c (by simp)
    rw [type_ofArg hlike ha, type_ofArg hlike hb, type_ofArg hlike hc, hover]
    exact ⟨⟨⟨ha, hb⟩, hc⟩, hsome⟩

/-- The overload that a node resolves to is that of a multiply-add into the widest type. -/
structure Resolves (e : Expr) (f : Overload) (m : Mnemonic) (like : ValueType) (as : List Arg) :
    Prop where
  overload : e.overload? = some f
  children : e.children = as.map (ofArg like)
  fuses : f.Fuses m (as.map (placeType like))
  result : f.result = like

theorem multiplyAdd_resolves (hw : Widest like (argExprs [a, b, c])) (hlike : like.valid = true)
    (htyped : ∀ x ∈ argExprs [a, b, c], x.type.valid = true)
    (hproper : ∀ k, Arg.const k ∈ [a, b, c] → k.Proper) {unit : Option UnitId}
    (h : (ternary .mad (ofArg like a) (ofArg like b) (ofArg like c)).errors unit = []) :
    ∃ f m, (ternary .mad (ofArg like a) (ofArg like b) (ofArg like c)).Resolves f m like
      [a, b, c] := by
  obtain ⟨hexprs, hsome, hconsts⟩ := (multiplyAdd_errors_iff hlike htyped hproper unit).mp h
  have hclean := (errors_places hlike unit hproper).mpr ⟨hexprs, hconsts⟩
  obtain ⟨f, hf⟩ := Option.isSome_iff_exists.mp hsome
  have htable : Overload.multiplyAdd (placeType like a) (placeType like b) (placeType like c) =
      some f := by
    unfold TernaryOp.overload? at hf
    split_ifs at hf
    exact hf
  obtain ⟨m, hm⟩ := Overload.multiplyAdd_fuses htable
  refine ⟨f, m, ?_, rfl, hm, hw.result_eq htyped hm⟩
  rw [overload?, type_ofArg hlike (hclean a (by simp)), type_ofArg hlike (hclean b (by simp)),
    type_ofArg hlike (hclean c (by simp)), hf]

/-! ### The code -/

theorem fitting_of_emitAll : ∀ {es : List Expr} {d d' : Draft} {xs : List Operand},
    (∀ x ∈ es, x.type.valid = true) → emitAll target es d = .ok (xs, d') → Fitting xs es
  | [], _, _, _, _, h => by
    cases h
    exact .nil
  | e :: es, d, d', xs, htyped, h => by
    obtain ⟨o, d₁, ho, h⟩ := Emit.bind_ok_iff.mp h
    obtain ⟨os, d₂, hos, h⟩ := Emit.bind_ok_iff.mp h
    cases h
    exact .cons (emit_fits_of_valid (htyped e (by simp)) ho)
      (fitting_of_emitAll (fun x hx => htyped x (by simp [hx])) hos)

variable {e : Expr} {f : Overload} {m : Mnemonic}

/-- The operands of the places suit the overload, and its code on them is the one line. -/
theorem Resolves.line (h : e.Resolves f m like [a, b, c]) (hlike : like.valid = true)
    {d d' : Draft} {xs : List Operand} (hplaced : Placed target like [a, b, c] d xs d') :
    f.Sound ∧ List.Forall₂ Operand.Fits xs f.args ∧ ∀ dst start,
      f.lines dst xs start = [fusedLine m like [a, b, c] dst xs] := by
  obtain ⟨hsound, hargs, -, -⟩ := overload?_spec h.overload
  have hemit := (emitAll_iff_placed hlike).mpr hplaced
  rw [← h.children] at hemit
  have htyped : ∀ x ∈ e.children, x.type.valid = true := by
    intro x hx
    exact (hsound.args_valid x.type (hargs ▸ List.mem_map_of_mem hx)).1
  have hfits := Fitting.fits_args hargs (fitting_of_emitAll htyped hemit)
  refine ⟨hsound, hfits, fun dst start => ?_⟩
  have hlen := hfits.length_eq
  rw [h.fuses.args] at hlen
  obtain ⟨x, y, z, rfl⟩ := List.length_eq_three.mp hlen
  rw [h.fuses.lines_eq dst x y z start, h.result]
  rfl

/-- A multiply-add is emitted exactly if its places are: they come first, one register is taken and
one line is added. -/
theorem Resolves.emit_iff (h : e.Resolves f m like [a, b, c]) (hlike : like.valid = true)
    {d d' : Draft} {o : Operand} : e.emit target d = .ok (o, d') ↔ ∃ xs d₁,
      Placed target like [a, b, c] d xs d₁ ∧ o = Operand.ofType (.temp d₁.next) like ∧
        d' = (d₁.taken 1).appended [fusedLine m like [a, b, c] o xs] := by
  rw [emit_of_overload target h.overload, Emit.bind_ok_iff, h.children]
  constructor
  · rintro ⟨xs, d₁, hemit, hfresh⟩
    have hplaced := (emitAll_iff_placed hlike).mp hemit
    obtain ⟨hsound, hfits, hlines⟩ := h.line hlike hplaced
    rw [Overload.emitFresh_eq hsound hfits, hlines, h.fuses.scratch, h.result] at hfresh
    cases hfresh
    exact ⟨xs, d₁, hplaced, rfl, rfl⟩
  · rintro ⟨xs, d₁, hplaced, rfl, rfl⟩
    obtain ⟨hsound, hfits, hlines⟩ := h.line hlike hplaced
    refine ⟨xs, d₁, (emitAll_iff_placed hlike).mpr hplaced, ?_⟩
    rw [Overload.emitFresh_eq hsound hfits, hlines, h.fuses.scratch, h.result]
    rfl

/-- Stored in a variable of its type it writes the variable, and no register is taken. -/
theorem Resolves.store_iff (h : e.Resolves f m like [a, b, c]) (hlike : like.valid = true)
    {v : Variable} {home : Home} (hv : v.declared = like) (hhome : v.home = some home)
    {d d' : Draft} : (LValue.var v).store target e d = .ok ((), d') ↔ ∃ xs d₁,
      Placed target like [a, b, c] d xs d₁ ∧ d' = d₁.appended
        [fusedLine m like [a, b, c]
          (Operand.ofType (.temp home.register) like) xs] := by
  have hdirect : e.direct? v.declared = some f := by
    simp [direct?, h.overload, h.fuses.single, h.result, hv]
  have hoperands := (overload?_spec h.overload).2.2.2
  have hdst : (Operand.ofType (.temp home.register) like).Fits f.result := by
    rw [h.result]
    exact Operand.ofType_fits _ hlike
  rw [LValue.store, Emit.bind_of_ok (Variable.operand_ok hhome d), hdirect, emitTo, hoperands,
    h.children, hv, Emit.bind_ok_iff]
  constructor
  · rintro ⟨xs, d₁, hemit, hinto⟩
    have hplaced := (emitAll_iff_placed hlike).mp hemit
    obtain ⟨hsound, hfits, hlines⟩ := h.line hlike hplaced
    rw [Overload.emitInto_eq hsound hdst hfits, hlines, h.fuses.scratch] at hinto
    cases hinto
    exact ⟨xs, d₁, hplaced, rfl⟩
  · rintro ⟨xs, d₁, hplaced, rfl⟩
    obtain ⟨hsound, hfits, hlines⟩ := h.line hlike hplaced
    refine ⟨xs, d₁, (emitAll_iff_placed hlike).mpr hplaced, ?_⟩
    rw [Overload.emitInto_eq hsound hdst hfits, hlines, h.fuses.scratch]
    rfl

theorem exists_placed : ∀ (as : List Arg) (d : Draft),
    (∀ x ∈ argExprs as, ∀ d, ∃ o d', x.emit target d = .ok (o, d')) →
      ∃ xs d', Placed target like as d xs d'
  | [], d, _ => ⟨[], d, .nil⟩
  | .expr e :: as, d, h => by
    obtain ⟨o, d₁, ho⟩ := h e (by simp [argExprs]) d
    obtain ⟨os, d₂, hos⟩ := exists_placed as d₁ fun x hx => h x (by simp [argExprs, hx])
    exact ⟨o :: os, d₂, .expr ho hos⟩
  | .const k :: as, d, h => by
    obtain ⟨os, d₂, hos⟩ := exists_placed as
      { d with literals := d.literals.add (Literal.const like k).bits } h
    exact ⟨_, d₂, .const hos⟩

end Expr

namespace Assembler

variable {s s' : Assembler} {e : Expr}

theorem eval_ok_iff (hphase : s.phase = .building) (hreport : s.report = none)
    (herr : e.errors (some s.unit) = []) {o : Operand} : s.eval e = .ok (.ok o, s') ↔
      ∃ d, e.emit s.target s.draft = .ok (o, d) ∧ s' = { s with draft := d } := by
  rw [eval_of_clean hphase hreport herr, except_bind_eq_ok]
  constructor
  · rintro ⟨r, hr, h⟩
    cases h
    exact emitting_ok_iff.mp hr
  · rintro ⟨d, hd, rfl⟩
    exact ⟨_, emitting_ok hd, rfl⟩

/-- An assignment to a variable of the type of an expression without errors. -/
theorem assign_var_ok_iff (hphase : s.phase = .building) (hreport : s.report = none)
    (herr : e.errors (some s.unit) = []) {v : Variable} {home : Home}
    (hvalid : v.declared.valid = true) (hv : v.declared = e.type) (hhome : v.home = some home)
    (hunit : home.unit = s.unit) : s.assign (some (.var v)) e = .ok s' ↔
      ∃ d, (LValue.var v).store s.target e s.draft = .ok ((), d) ∧ s' = { s with draft := d } := by
  have hvar : (LValue.var v).toExpr.errors (some s.unit) = [] := by
    simp [LValue.toExpr, Expr.errors, Variable.errors, hvalid, hhome, hunit]
  have htype : (LValue.var v).type = e.type := (if_pos hvalid).trans hv
  have hclean : LValue.assignErrors s.unit (some (.var v)) e = [] := by
    simp [LValue.assignErrors, hvar, herr, htype, LValue.accepts]
  rw [assign, guarded_eq hphase hreport]
  simp only [hclean, List.isEmpty_nil, if_true]
  rw [except_bind_eq_ok]
  constructor
  · rintro ⟨⟨u, s₁⟩, hr, h⟩
    cases h
    exact emitting_ok_iff.mp hr
  · rintro ⟨d, hd, rfl⟩
    exact ⟨_, emitting_ok hd, rfl⟩

end Assembler

namespace Expr

/-- **A multiply-add is one line.** With operands and constants in any of its places, it is one line
after the code of its operands. It is built if the operands have types. It validates exactly if the
operands do, there is a multiply-add of their types with the constants at the type of the widest
operand, and the constants are representable there; then that is its type. Its places are filled in
order, and one line reads them and writes one further register, or the variable it is assigned to; it
is one line of text if no name in the operands breaks a line. Nothing but the code of the operands can
fail. -/
theorem multiplyAdd_is_one_line {a b c : Arg} (hsome : argExprs [a, b, c] ≠ [])
    (htyped : ∀ x ∈ argExprs [a, b, c], x.type.valid = true)
    (hproper : ∀ k, Arg.const k ∈ [a, b, c] → k.Proper) :
    ∃ like e, multiplyAdd a b c = .ok e ∧ Widest like (argExprs [a, b, c]) ∧
      (∀ unit, e.errors unit = [] ↔
        (∀ x ∈ argExprs [a, b, c], x.errors unit = []) ∧
          (TernaryOp.mad.overload? (placeType like a) (placeType like b)
            (placeType like c)).isSome = true ∧
          ∀ k, Arg.const k ∈ [a, b, c] → k.Representable like.kind) ∧
      (∀ unit, e.errors unit = [] → e.type = like) ∧
      ∀ s : Assembler, s.phase = .building → s.report = none → e.errors (some s.unit) = [] →
        ∃ m, like.kind.FusedBy m ∧
          (like.kind, m.text) ∈ [(.float, "mad"), (.double, "dmad"), (.int, "imad"), (.uint, "umad")] ∧
          (∀ o s', s.eval e = .ok (.ok o, s') ↔ ∃ xs d,
            Placed s.target like [a, b, c] s.draft xs d ∧
              o = Operand.ofType (.temp d.next) like ∧
              s' = { s with
                draft := (d.taken 1).appended [fusedLine m like [a, b, c] o xs] }) ∧
          (∀ v home, v.declared = like → v.home = some home → home.unit = s.unit → ∀ s',
            s.assign (some (.var v)) e = .ok s' ↔ ∃ xs d,
              Placed s.target like [a, b, c] s.draft xs d ∧
                s' = { s with
                  draft := d.appended [fusedLine m like [a, b, c]
                    (Operand.ofType (.temp home.register) like) xs] }) ∧
          ((∀ x ∈ argExprs [a, b, c], x.FlatNames) →
            ∀ xs d r, Placed s.target like [a, b, c] s.draft xs d → Text.SingleLine
              (Line.instruction (fusedLine m like [a, b, c] (Operand.ofType (.temp r) like) xs)).text) ∧
          ((∀ x ∈ argExprs [a, b, c], x.WellTyped) →
            ∃ xs d, Placed s.target like [a, b, c] s.draft xs d) := by
  obtain ⟨like, hfrom, hw⟩ := exists_widest hsome htyped
  have hlike : like.valid = true := by
    obtain ⟨x, hx, rfl⟩ := hw.mem
    exact htyped x hx
  have htype : ∀ unit, (ternary .mad (ofArg like a) (ofArg like b) (ofArg like c)).errors unit = [] →
      (ternary .mad (ofArg like a) (ofArg like b) (ofArg like c)).type = like := by
    intro unit herr
    obtain ⟨f, m, hres⟩ := multiplyAdd_resolves hw hlike htyped hproper herr
    exact (overload?_spec hres.overload).2.2.1.symm.trans hres.result
  refine ⟨like, _, multiplyAdd_eq hfrom htyped, hw, multiplyAdd_errors_iff hlike htyped hproper, htype,
    fun s hphase hreport herr => ?_⟩
  obtain ⟨f, m, hres⟩ := multiplyAdd_resolves hw hlike htyped hproper herr
  have hexprs := ((multiplyAdd_errors_iff hlike htyped hproper (some s.unit)).mp herr).1
  have hm := hres.fuses.mnemonic
  rw [hres.result] at hm
  refine ⟨m, hm, hm.text, fun o s' => ?_, fun v home hv hhome hunit s' => ?_,
    fun hnames xs d r hplaced => hplaced.singleLine hlike hnames m r,
    fun hwell => exists_placed _ _ fun x hx d => ?_⟩
  · rw [Assembler.eval_ok_iff hphase hreport herr]
    constructor
    · rintro ⟨d', hemit, rfl⟩
      obtain ⟨xs, d, hplaced, ho, rfl⟩ := (hres.emit_iff hlike).mp hemit
      exact ⟨xs, d, hplaced, ho, rfl⟩
    · rintro ⟨xs, d, hplaced, ho, rfl⟩
      exact ⟨_, (hres.emit_iff hlike).mpr ⟨xs, d, hplaced, ho, rfl⟩, rfl⟩
  · rw [Assembler.assign_var_ok_iff hphase hreport herr (hv ▸ hlike) (hv.trans (htype _ herr).symm)
      hhome hunit]
    constructor
    · rintro ⟨d', hstore, rfl⟩
      obtain ⟨xs, d, hplaced, rfl⟩ := (hres.store_iff hlike hv hhome).mp hstore
      exact ⟨xs, d, hplaced, rfl⟩
    · rintro ⟨xs, d, hplaced, rfl⟩
      exact ⟨_, (hres.store_iff hlike hv hhome).mpr ⟨xs, d, hplaced, rfl⟩, rfl⟩
  · obtain ⟨o, d', hemit, -⟩ := (⟨hwell x hx, hexprs x hx⟩ : Accepted s.unit x).emit_ok s.target d
    exact ⟨o, d', hemit⟩

/-- The premises can be met: a constant times a scalar plus a vector is one line, which reads the
scalar in all four lanes and takes one register. -/
theorem multiplyAdd_of_scaled_scalar :
    let v : Variable := ⟨.int1, some ⟨⟨0, 1⟩, 0⟩⟩
    let w : Variable := ⟨.int4, some ⟨⟨0, 1⟩, 1⟩⟩
    let s : Assembler := { phase := .building, generation := 1, draft := { next := 2 } }
    ∃ e o s', multiplyAdd (.const (.word 3)) (.expr (.var v)) (.expr (.var w)) = .ok e ∧
      e.type = .int4 ∧ s.eval e = .ok (.ok o, s') ∧ s'.draft.next = 3 ∧
      s'.draft.code.toList.map Line.text = ["imad r2,l0,r0.xxxx,r1\n"] := by
  intro v w s
  have htyped : ∀ x ∈ argExprs [.const (.word 3), .expr (.var v), .expr (.var w)],
      x.type.valid = true := by
    decide
  have hword : (⟨true, 64⟩ : IntegerFormat).Contains 3 := by decide
  have hproper : ∀ k, Arg.const k ∈ [.const (.word 3), .expr (.var v), .expr (.var w)] →
      k.Proper := by
    simpa [Host.word, Host.Proper] using hword
  obtain ⟨like, e, he, -, -, htype, hcode⟩ :=
    multiplyAdd_is_one_line (by simp [argExprs]) htyped hproper
  have hwidest : widestFrom .invalid
      (argExprs [.const (.word 3), .expr (.var v), .expr (.var w)]) = .ok .int4 := rfl
  have hnode := multiplyAdd_eq hwidest htyped
  have hclean : e.errors (some s.unit) = [] := by
    rw [hnode] at he
    cases he
    decide
  have hlike : like = .int4 := by
    rw [← htype _ hclean]
    rw [hnode] at he
    cases he
    rfl
  subst hlike
  obtain ⟨m, hm, -, heval, -, -, -⟩ := hcode s rfl rfl hclean
  cases hm
  have hplaced : Placed s.target .int4 [.const (.word 3), .expr (.var v), .expr (.var w)] s.draft
      [Operand.ofType (.literal 0) .int4, Operand.ofType (.temp 0) .int1,
        Operand.ofType (.temp 1) .int4]
      { s.draft with literals := ({} : LiteralTable).add (Literal.const .int4 (.word 3)).bits } :=
    .const (.expr rfl (.expr rfl .nil))
  exact ⟨e, _, _, he, htype _ hclean, (heval _ _).mpr ⟨_, _, hplaced, rfl, rfl⟩, rfl, by decide⟩

/-- An integer in the range of the kind is not enough for a constant: the largest one looks like the
mark of an overflow and is refused, where the one below it is not. -/
theorem multiplyAdd_refuses_largest :
    let v : Variable := ⟨.int1, some ⟨⟨0, 1⟩, 0⟩⟩
    (Expr.var v).errors none = [] ∧ Kind.int.Admits 2147483647 ∧
      (TernaryOp.mad.overload? .int1 .int1 .int1).isSome = true ∧
      (∃ e, multiplyAdd (.expr (.var v)) (.expr (.var v)) (.const (.word 2147483647)) = .ok e ∧
        e.errors none = [.literalRange .int1 .outOfRange]) ∧
      ∃ e, multiplyAdd (.expr (.var v)) (.expr (.var v)) (.const (.word 2147483646)) = .ok e ∧
        e.errors none = [] := by
  intro v
  have hbuilt : ∀ n, multiplyAdd (.expr (.var v)) (.expr (.var v)) (.const (.word n)) =
      .ok (ternary .mad (.var v) (.var v) (ofArg .int1 (.const (.word n)))) := fun n =>
    multiplyAdd_eq rfl (by simp only [argExprs, List.forall_mem_cons]; decide)
  exact ⟨rfl, ⟨by decide, by decide⟩, rfl, ⟨_, hbuilt _, by decide⟩, _, hbuilt _, by decide⟩

end Expr

end ShaderIL
