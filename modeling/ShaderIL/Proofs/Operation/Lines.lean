import ShaderIL.Proofs.Operation.Soundness
import ShaderIL.Proofs.Text.Operand
import ShaderIL.Script.Operand

/-!
# The lines an overload emits

What the code of an overload touches, whatever operands it is given. `Operands.Kept` says it of a list
of instructions: each writes lanes of the result or a whole scratch operand, together they write all
lanes of the result, and each reads lanes of the sources or of a scratch operand that an earlier line
wrote. Operands may share their place, so a line does not tell by itself which of them it is meant to
write; a list of roles does. Every overload of the table keeps to this on operands of its types
(`overload_keeps_to_operands`). Where lines write parts of the result, the result must be cut into
components as its type is: two lanes cannot be taken as one component.
-/

namespace ShaderIL

open Text

/-! ### Positions in a body -/

/-- A scratch register that is read was written before, by a line of the body or earlier. -/
theorem ScratchReady.exists_earlier {ps : List Pattern} {done : List Nat} {k q : Nat} {p : Pattern}
    {s : PatternSource} (h : ScratchReady done ps) (hk : ps[k]? = some p) (hs : s ∈ p.sources)
    (hslot : s.slot = .scratch q) :
    q ∈ done ∨ ∃ j p', j < k ∧ ps[j]? = some p' ∧ p'.target.scratch? = some q := by
  induction ps generalizing done k with
  | nil => cases hk
  | cons p' ps ih =>
    obtain ⟨hfirst, hrest⟩ := h
    cases k with
    | zero =>
      cases hk
      exact .inl (hfirst s hs q hslot)
    | succ k =>
      rcases ih hrest hk with hq | ⟨j, w, hj, hw, hq⟩
      · rcases List.mem_append.mp hq with hq | hq
        · exact .inr ⟨0, p', by omega, rfl, Option.mem_toList.mp hq⟩
        · exact .inl hq
      · exact .inr ⟨j + 1, w, by omega, hw, hq⟩

/-! ### Lines and the operands they touch -/

/-- The instructions keep to their operands. The role of a line is the number of the scratch operand it
writes, none if it writes the result. -/
structure Operands.Kept (o : Operands) (roles : List (Option Nat)) (is : List Instruction) : Prop where
  length_eq : roles.length = is.length
  writes : ∀ (k : Nat) (i : Instruction), is[k]? = some i →
    roles[k]? = some none ∧ o.result.Holds i.dst.place i.dst.mask.lanes ∨
      ∃ (q : Nat) (x : Operand), roles[k]? = some (some q) ∧ o.scratch[q]? = some x ∧
        i.dst = x.destination
  covers : ∀ l : Lane, l ∈ o.result.lanes.lanes ↔
    ∃ (k : Nat) (i : Instruction), roles[k]? = some none ∧ is[k]? = some i ∧ l ∈ i.dst.mask.lanes
  reads : ∀ (k : Nat) (i : Instruction), is[k]? = some i → ∀ s ∈ i.srcs,
    (∃ x ∈ o.sources, x.Holds s.place s.lanes.lanes) ∨
      ∃ (q : Nat) (x : Operand), o.scratch[q]? = some x ∧ x.Holds s.place s.lanes.lanes ∧
        ∃ (j : Nat) (w : Instruction), j < k ∧ roles[j]? = some (some q) ∧ is[j]? = some w ∧
          w.dst.place = s.place ∧ ∀ l ∈ s.lanes.lanes, l ∈ w.dst.mask.lanes

/-- A line that keeps to its operands mentions no other place. -/
theorem Operands.Kept.place_mem {o : Operands} {roles : List (Option Nat)} {is : List Instruction}
    (h : o.Kept roles is) {i : Instruction} (hi : i ∈ is) :
    (∃ x ∈ o.result :: o.sources ++ o.scratch, i.dst.place = x.place) ∧
      ∀ s ∈ i.srcs, ∃ x ∈ o.result :: o.sources ++ o.scratch, s.place = x.place := by
  obtain ⟨k, hk⟩ := List.mem_iff_getElem?.mp hi
  refine ⟨?_, fun s hs => ?_⟩
  · rcases h.writes k i hk with ⟨-, hholds⟩ | ⟨q, x, -, hx, hdst⟩
    · exact ⟨o.result, by simp, hholds.1⟩
    · exact ⟨x, by simp [List.mem_of_getElem? hx], by rw [hdst]; rfl⟩
  · rcases h.reads k i hk s hs with ⟨x, hx, hholds⟩ | ⟨q, x, hx, hholds, -⟩
    · exact ⟨x, by simp [hx], hholds.1⟩
    · exact ⟨x, by simp [List.mem_of_getElem? hx], hholds.1⟩

/-- Lines that keep to operands without line breaks in their names are lines of text. -/
theorem Operands.Kept.singleLine_iff {o : Operands} {roles : List (Option Nat)}
    {is : List Instruction} (h : o.Kept roles is)
    (hflat : ∀ x ∈ o.result :: o.sources ++ o.scratch, Flat x.name) :
    SingleLine (Script.instructionsText is) ↔ is.length = 1 := by
  have hlines : ∀ l ∈ is.map fun i => (Line.instruction i).text, SingleLine l := by
    intro l hl
    obtain ⟨i, hi, rfl⟩ := List.mem_map.mp hl
    obtain ⟨⟨x, hx, hdst⟩, hsrcs⟩ := h.place_mem hi
    refine i.singleLine (hdst ▸ hflat x hx) fun s hs => ?_
    obtain ⟨y, hy, hs⟩ := hsrcs s hs
    exact hs ▸ hflat y hy
  constructor
  · intro hone
    have hcount := countBreaks_join hlines
    rw [List.length_map] at hcount
    exact hcount.symm.trans hone.countBreaks
  · intro hone
    obtain ⟨i, rfl⟩ := List.length_eq_one_iff.mp hone
    have hjoin : Script.instructionsText [i] = (Line.instruction i).text := by
      simp [Script.instructionsText]
    rw [hjoin]
    exact hlines _ (by simp)

/-! ### Sound overloads -/

namespace Overload

variable {f : Overload} {o : Operands} {dst : Operand} {xs scratch : List Operand}

theorem Sound.scratch_line (hf : f.Sound) {p : Pattern} (hp : p ∈ f.body) {q : Nat}
    (hq : p.target.scratch? = some q) :
    q < f.scratch ∧ (p.filled o).dst = (o.slot (.scratch q)).destination := by
  have hlegal := hf.target_legal p hp
  cases ht : p.target with
  | result | resultComponent | resultSpan => simp [ht, PatternTarget.scratch?] at hq
  | scratch q' =>
    simp only [ht, PatternTarget.scratch?, Option.some.injEq] at hq
    subst hq
    rw [ht] at hlegal
    exact ⟨hlegal, by rw [Pattern.filled, ht]; rfl⟩

/-- A lane of the result is written by the line that covers the component it belongs to. -/
theorem Sound.exists_target (hf : f.Sound) (hr : o.result.Fits f.result) {l : Lane}
    (hl : l ∈ o.result.lanes.lanes) :
    ∃ p ∈ f.body, p.target.scratch? = none ∧ l ∈ (o.targetOperand p.target).lanes.lanes := by
  obtain ⟨m, hm, rfl⟩ := List.getElem_of_mem hl
  have hm' : m < f.result.lanes := Nat.lt_of_lt_of_eq hm hr.count
  obtain ⟨p, hp, hc⟩ := hf.covers _ (ValueType.component_lt hm')
  have hs : p.target.scratch? = none := by
    cases ht : p.target with
    | scratch q =>
      rw [ht] at hc
      exact hc.elim
    | _ => rfl
  have hmem := hf.getD_mem_target hr hm' hc
  rw [List.getD_eq_getElem?_getD, List.getElem?_eq_getElem hm, Option.getD_some] at hmem
  exact ⟨p, hp, hs, hmem⟩

/-- The filled patterns of a sound overload keep to the operands. -/
theorem Sound.kept (hf : f.Sound) (hsup : f.Supplied o) (hxs : List.Forall₂ Operand.Fits xs f.args)
    (ho : o.sources = f.widened xs) :
    Operands.Kept { o with sources := xs } (f.body.map fun p => p.target.scratch?)
      (f.body.map fun p => p.filled o) := by
  have hslot : ∀ q < f.scratch, o.scratch[q]? = some (o.slot (.scratch q)) := by
    intro q hq
    simp [Operands.slot, hsup.scratch_length, hq]
  refine ⟨by simp, fun k i hk => ?_, fun l => ⟨fun hl => ?_, ?_⟩, fun k i hk s hs => ?_⟩
  · rw [List.getElem?_map, Option.map_eq_some_iff] at hk
    obtain ⟨p, hpk, rfl⟩ := hk
    have hp := List.mem_of_getElem? hpk
    cases hs : p.target.scratch? with
    | none =>
      have hholds := hf.holds_target hsup.result (hf.target_legal p hp) hs
      exact .inl ⟨by simp [hpk, hs], hholds.destination⟩
    | some q =>
      obtain ⟨hq, hdst⟩ := hf.scratch_line (o := o) hp hs
      exact .inr ⟨q, _, by simp [hpk, hs], hslot q hq, hdst⟩
  · obtain ⟨p, hp, hs, hmem⟩ := hf.exists_target hsup.result hl
    obtain ⟨k, hpk⟩ := List.mem_iff_getElem?.mp hp
    exact ⟨k, p.filled o, by simp [hpk, hs], by simp [hpk], Operand.mem_destination.mpr hmem⟩
  · rintro ⟨k, i, hrole, hk, hl⟩
    simp only [List.getElem?_map, Option.map_eq_some_iff] at hrole hk
    obtain ⟨p, hpk, hs⟩ := hrole
    obtain ⟨p', hpk', rfl⟩ := hk
    cases hpk.symm.trans hpk'
    have hlegal := hf.target_legal p (List.mem_of_getElem? hpk)
    exact (hf.holds_target hsup.result hlegal hs).destination.2 l hl
  · rw [List.getElem?_map, Option.map_eq_some_iff] at hk
    obtain ⟨p, hpk, rfl⟩ := hk
    obtain ⟨src, hsrc, rfl⟩ := List.mem_map.mp hs
    have hlegal := hf.source_legal p (List.mem_of_getElem? hpk) src hsrc
    have hread := hsup.holds_source hf hlegal (o.targetOperand p.target)
    rcases hf.slot_cases hxs ho hlegal with ⟨x, hx, hholds⟩ | ⟨q, hq, hqslot⟩
    · exact .inl ⟨x, hx, hholds.trans hread⟩
    · rw [hqslot] at hread
      rcases hf.ready.exists_earlier hpk hsrc hqslot with hdone | ⟨j, w, hj, hw, hrole⟩
      · cases hdone
      · obtain ⟨-, hdst⟩ := hf.scratch_line (o := o) (List.mem_of_getElem? hw) hrole
        refine .inr ⟨q, _, hslot q hq, hread, j, w.filled o, hj, by simp [hw, hrole],
          by simp [hw], ?_⟩
        rw [hdst]
        exact ⟨hread.1.symm, fun l hl => Operand.mem_destination.mpr (hread.2 l hl)⟩

/-! ### Results cut into other components -/

/-- A line of the body writes a part of the result. -/
def Partwise (f : Overload) : Prop :=
  ∃ p ∈ f.body, p.target ≠ .result ∧ p.target.scratch? = none

theorem mapM_except_congr {ε α β : Type} {f g : α → Except ε β} :
    ∀ {l : List α}, (∀ a ∈ l, f a = g a) → l.mapM f = l.mapM g
  | [], _ => rfl
  | a :: l, h => by
    rw [List.mapM_cons, List.mapM_cons, h a (by simp),
      mapM_except_congr fun b hb => h b (by simp [hb])]

/-- A line that writes the result whole does not ask how it is cut into components. -/
theorem instantiate_withWidth {p : Pattern} (hp : p.target = .result ∨ p.target.scratch? ≠ none)
    (w : Nat) : p.instantiate ⟨{ dst with width := w }, xs, scratch⟩ =
      p.instantiate ⟨dst, xs, scratch⟩ := by
  have hsource : ∀ d : Operand, Operands.source ⟨{ dst with width := w }, xs, scratch⟩ d =
      Operands.source ⟨dst, xs, scratch⟩ d := by
    intro d
    funext s
    cases s <;> rfl
  have hread : ∀ q, Operands.read ⟨{ dst with width := w }, xs, scratch⟩ (.scratch q) =
    Operands.read ⟨dst, xs, scratch⟩ (.scratch q) := fun _ => rfl
  cases ht : p.target with
  | result =>
    rw [Pattern.instantiate, Pattern.instantiate, ht]
    simp only [Operands.target, hsource]
    rfl
  | scratch q =>
    rw [Pattern.instantiate, Pattern.instantiate, ht]
    simp only [Operands.target, hread, hsource]
  | resultComponent | resultSpan => simp [ht, PatternTarget.scratch?] at hp

theorem emit_withWidth (h : ¬ f.Partwise) (w : Nat) :
    f.emit { dst with width := w } xs scratch = f.emit dst xs scratch := by
  have hbody : ∀ ys : List Operand,
      (f.body.mapM fun p => p.instantiate ⟨{ dst with width := w }, ys, scratch⟩) =
        f.body.mapM fun p => p.instantiate ⟨dst, ys, scratch⟩ := by
    intro ys
    refine mapM_except_congr fun p hp => instantiate_withWidth ?_ w
    by_contra hpart
    rw [not_or, not_not] at hpart
    exact h ⟨p, hp, hpart⟩
  simp only [emit, hbody]

end Overload

/-! ### The table -/

/-- The table has the overload for an operation at operand types, or for a conversion of one operand. -/
def Opcode.Resolves (op : Opcode) (args : List ValueType) (f : Overload) : Prop :=
  op.resolve args = .ok f ∨
    ∃ target source, args = [source] ∧ op.resolveConversion target source = .ok f

theorem Opcode.overload?_sound {op : Opcode} {args : List ValueType} {f : Overload}
    (h : op.overload? args = some f) : f.Sound ∧ f.args = args := by
  unfold overload? at h
  split at h
  · exact UnaryOp.sound h
  · exact BinaryOp.sound h
  · exact TernaryOp.sound h
  · cases h

theorem Opcode.Resolves.sound {op : Opcode} {args : List ValueType} {f : Overload}
    (h : op.Resolves args f) : f.Sound ∧ f.args = args := by
  rcases h with h | ⟨target, source, rfl, h⟩
  · have hf : op.overload? args = some f := by
      unfold resolve at h
      split at h
      · cases h
      · split_ifs at h
        split at h
        · next hf =>
          cases h
          exact hf
        · cases h
    exact overload?_sound hf
  · unfold resolveConversion at h
    split at h
    · split at h
      · next hf =>
        cases h
        obtain ⟨hsound, hargs, -⟩ := Conversion.sound hf
        exact ⟨hsound, hargs⟩
      · cases h
    · cases h

/-- **Every overload of the table keeps to its operands.** The result has as many lanes as the result
type, at any place and in any order; if a line writes a part of it, it is also cut into the components
of its type. The sources have the types of the operands and the scratch operands the type of the
result. Then emission gives lines that keep to these operands, and it gives a single line exactly if
the overload is marked so, which takes no scratch operands. -/
theorem overload_keeps_to_operands {op : Opcode} {args : List ValueType} {f : Overload}
    (hf : op.Resolves args f) (dst : Operand) (xs scratch : List Operand)
    (hcount : dst.lanes.count = f.result.lanes) (hwidth : f.Partwise → dst.width = f.result.laneWidth)
    (hxs : List.Forall₂ Operand.Fits xs f.args) (hlen : scratch.length = f.scratch)
    (hscratch : ∀ x ∈ scratch, x.Fits f.result) :
    f.args = args ∧
    ∃ is roles, f.emit dst xs scratch = .ok is ∧ Operands.Kept ⟨dst, xs, scratch⟩ roles is ∧
      (is.length = 1 ↔ f.single = true) ∧ (f.single = true → f.scratch = 0) ∧
      ((∀ x ∈ dst :: xs ++ scratch, Flat x.name) →
        (SingleLine (Script.instructionsText is) ↔ f.single = true)) := by
  obtain ⟨hsound, hargs⟩ := hf.sound
  -- the result as its type cuts it
  have hfits : Operand.Fits { dst with width := f.result.laneWidth } f.result := ⟨hcount, rfl⟩
  have hemit : f.emit { dst with width := f.result.laneWidth } xs scratch = f.emit dst xs scratch := by
    by_cases hpart : f.Partwise
    · rw [← hwidth hpart]
    · exact Overload.emit_withWidth hpart _
  have hkept := hsound.kept (f.supplied_widened hfits hxs hlen hscratch) hxs rfl
  rw [hsound.emit_eq hfits hxs hlen hscratch] at hemit
  have hkept' : Operands.Kept ⟨dst, xs, scratch⟩ _ _ :=
    ⟨hkept.length_eq, hkept.writes, hkept.covers, hkept.reads⟩
  have hsingle := hsound.single_iff
  refine ⟨hargs, _, _, hemit.symm, hkept', ?_, hsound.scratch_of_single, fun hflat => ?_⟩
  · rw [List.length_map]
    exact hsingle.symm
  · rw [hkept'.singleLine_iff hflat, List.length_map]
    exact hsingle.symm

/-- The remainder of four floats by one, written backwards: the quotient is kept in a scratch operand,
which shares its place with the result. -/
theorem remainder_keeps_to_operands :
    ∃ f, (Opcode.binary .mod).Resolves [.float4, .float1] f ∧ f.scratch = 1 ∧
      ∃ is roles, f.emit ⟨.temp 0, ⟨[.w, .z, .y, .x]⟩, 1⟩
          [⟨.literal 2, ⟨[.x, .x, .y, .w]⟩, 1⟩, ⟨.constant 0 1, ⟨[.z]⟩, 1⟩]
          [.ofType (.temp 0) .float4] = .ok is ∧
        Operands.Kept ⟨⟨.temp 0, ⟨[.w, .z, .y, .x]⟩, 1⟩,
          [⟨.literal 2, ⟨[.x, .x, .y, .w]⟩, 1⟩, ⟨.constant 0 1, ⟨[.z]⟩, 1⟩],
          [.ofType (.temp 0) .float4]⟩ roles is := by
  have hresolves : (Opcode.binary .mod).Resolves [.float4, .float1] _ := .inl rfl
  refine ⟨_, hresolves, rfl, ?_⟩
  obtain ⟨-, is, roles, hemit, hkept, -⟩ :=
    overload_keeps_to_operands hresolves ⟨.temp 0, ⟨[.w, .z, .y, .x]⟩, 1⟩
      [⟨.literal 2, ⟨[.x, .x, .y, .w]⟩, 1⟩, ⟨.constant 0 1, ⟨[.z]⟩, 1⟩] [.ofType (.temp 0) .float4]
      rfl (fun _ => rfl) (.cons ⟨rfl, rfl⟩ (.cons ⟨rfl, rfl⟩ .nil)) rfl
      (by simpa using Operand.ofType_fits (.temp 0) (t := .float4) rfl)
  exact ⟨is, roles, hemit, hkept⟩

/-- A pair of doubles has the four lanes of a merged value, all different, but the halves of the value
are no components of the pair. -/
theorem merge_into_pair_of_doubles_faults :
    ∃ f, (Opcode.binary .merge).Resolves [.float2, .float2] f ∧ f.scratch = 0 ∧
      ∃ dst xs, dst.lanes.lanes.Nodup ∧ dst.lanes.count = f.result.lanes ∧
        List.Forall₂ Operand.Fits xs f.args ∧ f.emit dst xs [] = .error .laneRange := by
  refine ⟨_, .inl rfl, rfl, .ofType (.named "d") .double2,
    [.ofType (.named "a") .float2, .ofType (.named "b") .float2], ?_, rfl, ?_, ?_⟩
  · decide
  · exact .cons ⟨rfl, rfl⟩ (.cons ⟨rfl, rfl⟩ .nil)
  · rfl

end ShaderIL
