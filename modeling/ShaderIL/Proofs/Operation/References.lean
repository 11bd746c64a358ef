import ShaderIL.Proofs.Draft
import ShaderIL.Operation.Table

/-!
# What instructions refer to

Code refers to the tables of its draft: a literal register, an element of a constant buffer, an input,
the global buffer, the window position. `Reference` is one such mention. The lines of an overload
work on the operands that fill its slots (`Instruction.On`, `Overload.emit_on`), so they mention only
what these mention (`Overload.references_emit`), as no operation takes a sample.
-/

namespace ShaderIL

/-- A reference from code to the tables of a draft. -/
inductive Reference where
  | literal (index : Nat)
  | element (slot index : Int)
  | input (slot : Int)
  | global
  | position
  deriving DecidableEq

/-- What the name of an operand refers to. -/
def Place.references : Place → List Reference
  | literal i => [.literal i]
  | constant slot i => [.element slot i]
  | globalAt _ => [.global]
  | globalFrom base _ _ => .global :: base.references
  | windowPosition => [.position]
  | temp _ | threadId | named _ => []

/-- What a mnemonic refers to. -/
def Mnemonic.references : Mnemonic → List Reference
  | sample slot => [.input slot]
  | _ => []

/-- What an instruction refers to. -/
def Instruction.references (i : Instruction) : List Reference :=
  i.mnemonic.references ++ i.dst.place.references ++ i.srcs.flatMap fun s => s.place.references

/-- What a line of code refers to. -/
def Line.references : Line → List Reference
  | instruction i => i.references
  | test _ c => c.place.references
  | word _ | comment _ => []

/-! ### Operands and overloads -/

namespace Operand

variable {o o' : Operand}

theorem select_place {p : Swizzle} (h : o.select p = .ok o') : o'.place = o.place := by
  unfold select at h
  split at h
  · split_ifs at h
    cases h
    rfl
  · cases h

theorem component_place {i : Int} (h : o.component i = .ok o') : o'.place = o.place := by
  obtain ⟨p, -, hp⟩ := except_bind_eq_ok.mp h
  exact select_place hp

theorem span_place {start n : Int} (h : o.span start n = .ok o') : o'.place = o.place := by
  obtain ⟨p, -, hp⟩ := except_bind_eq_ok.mp h
  exact select_place hp

theorem splat_place {n : Int} (h : o.splat n = .ok o') : o'.place = o.place := by
  obtain ⟨p, -, hp⟩ := except_bind_eq_ok.mp h
  exact select_place hp

end Operand

/-- What comes out of a checked list comes out of one of its members. -/
theorem of_mem_mapM_except {ε α β : Type} {f : α → Except ε β} :
    ∀ {xs : List α} {ys : List β}, xs.mapM f = .ok ys → ∀ y ∈ ys, ∃ x ∈ xs, f x = .ok y
  | [], ys, h, y, hy => by
    cases h
    cases hy
  | x :: xs, ys, h, y, hy => by
    rw [List.mapM_cons] at h
    obtain ⟨z, hz, h⟩ := except_bind_eq_ok.mp h
    obtain ⟨zs, hzs, h⟩ := except_bind_eq_ok.mp h
    cases h
    rcases List.mem_cons.mp hy with rfl | hy
    · exact ⟨x, List.mem_cons_self, hz⟩
    · obtain ⟨w, hw, hwy⟩ := of_mem_mapM_except hzs y hy
      exact ⟨w, List.mem_cons_of_mem _ hw, hwy⟩

namespace Operands

variable {o : Operands} {x : Operand}

/-- The operands that fill slots. -/
def supplied (o : Operands) : List Operand := o.sources ++ o.scratch

theorem read_mem {slot : Slot} (h : o.read slot = .ok x) : x ∈ o.supplied := by
  unfold read at h
  cases slot with
  | source i =>
    cases hi : o.sources[i]? with
    | none => simp [hi] at h
    | some y =>
      simp only [hi, Except.ok.injEq] at h
      exact List.mem_append_left _ (h ▸ List.mem_of_getElem? hi)
  | scratch i =>
    cases hi : o.scratch[i]? with
    | none => simp [hi] at h
    | some y =>
      simp only [hi, Except.ok.injEq] at h
      exact List.mem_append_right _ (h ▸ List.mem_of_getElem? hi)

theorem target_place {p : PatternTarget} (h : o.target p = .ok x) :
    ∃ y ∈ o.result :: o.supplied, x.place = y.place := by
  cases p with
  | result =>
    cases h
    exact ⟨_, List.mem_cons_self, rfl⟩
  | resultComponent i => exact ⟨_, List.mem_cons_self, Operand.component_place h⟩
  | resultSpan start n => exact ⟨_, List.mem_cons_self, Operand.span_place h⟩
  | scratch i =>
    have hread : o.read (.scratch i) = .ok x := h
    exact ⟨x, List.mem_cons_of_mem _ (read_mem hread), rfl⟩

theorem source_place {dst : Operand} {p : PatternSource} {s : SourceOperand}
    (h : o.source dst p = .ok s) : ∃ y ∈ o.supplied, s.place = y.place := by
  cases p with
  | whole slot sign | aligned slot =>
    obtain ⟨y, hy, h⟩ := except_bind_eq_ok.mp h
    cases h
    exact ⟨y, read_mem hy, rfl⟩
  | component slot i =>
    obtain ⟨y, hy, h⟩ := except_bind_eq_ok.mp h
    obtain ⟨z, hz, h⟩ := except_bind_eq_ok.mp h
    cases h
    exact ⟨y, read_mem hy, Operand.component_place hz⟩

end Operands

/-- The instruction works on the operands: its places are theirs, and it writes the lanes of an
operand. -/
structure Instruction.On (os : List Operand) (i : Instruction) : Prop where
  dst : ∃ x : Operand, i.dst = x.destination ∧ ∃ y ∈ os, x.place = y.place
  srcs : ∀ s ∈ i.srcs, ∃ y ∈ os, s.place = y.place

namespace Instruction.On

variable {os os' : List Operand} {i : Instruction}

theorem of_places (h : i.On os) (hos : ∀ y ∈ os, ∃ x ∈ os', y.place = x.place) : i.On os' := by
  obtain ⟨x, hdst, y, hy, hxy⟩ := h.dst
  refine ⟨⟨x, hdst, ?_⟩, fun s hs => ?_⟩
  · obtain ⟨z, hz, hyz⟩ := hos y hy
    exact ⟨z, hz, hxy.trans hyz⟩
  · obtain ⟨y, hy, hsy⟩ := h.srcs s hs
    obtain ⟨z, hz, hyz⟩ := hos y hy
    exact ⟨z, hz, hsy.trans hyz⟩

/-- An instruction refers to what its mnemonic and its operands refer to. -/
theorem references (h : i.On os) :
    i.references ⊆ i.mnemonic.references ++ os.flatMap fun x => x.place.references := by
  intro r hr
  simp only [Instruction.references, List.mem_append, List.mem_flatMap] at hr
  rcases hr with (hr | hr) | ⟨s, hs, hr⟩
  · exact List.mem_append_left _ hr
  · obtain ⟨x, hdst, y, hy, hxy⟩ := h.dst
    refine List.mem_append_right _ (List.mem_flatMap.mpr ⟨y, hy, ?_⟩)
    rw [← hxy]
    rw [hdst] at hr
    exact hr
  · obtain ⟨y, hy, hsy⟩ := h.srcs s hs
    refine List.mem_append_right _ (List.mem_flatMap.mpr ⟨y, hy, ?_⟩)
    rw [← hsy]
    exact hr

end Instruction.On

/-- A filled pattern works on the operands that fill it. -/
theorem Pattern.instantiate_on {p : Pattern} {o : Operands} {i : Instruction}
    (h : p.instantiate o = .ok i) : i.mnemonic = p.mnemonic ∧ i.On (o.result :: o.supplied) := by
  obtain ⟨dst, hdst, h⟩ := except_bind_eq_ok.mp h
  obtain ⟨srcs, hsrcs, h⟩ := except_bind_eq_ok.mp h
  cases h
  refine ⟨rfl, ⟨dst, rfl, Operands.target_place hdst⟩, fun s hs => ?_⟩
  obtain ⟨q, -, hq⟩ := of_mem_mapM_except hsrcs s hs
  obtain ⟨y, hy, hsy⟩ := Operands.source_place hq
  exact ⟨y, List.mem_cons_of_mem _ hy, hsy⟩

namespace Overload

variable {f : Overload}

theorem widenSources_place : ∀ {ts : List ValueType} {xs ys : List Operand},
    f.widenSources ts xs = .ok ys → ∀ y ∈ ys, ∃ x ∈ xs, y.place = x.place
  | _, [], ys, h, y, hy => by
    rw [widenSources] at h
    cases h
    cases hy
  | [], _ :: _, ys, h, y, hy => by
    rw [widenSources] at h
    cases h
  | t :: ts, x :: xs, ys, h, y, hy => by
    rw [widenSources] at h
    obtain ⟨z, hz, h⟩ := except_bind_eq_ok.mp h
    obtain ⟨zs, hzs, h⟩ := except_bind_eq_ok.mp h
    cases h
    rcases List.mem_cons.mp hy with rfl | hy
    · refine ⟨x, List.mem_cons_self, ?_⟩
      unfold widenOperand at hz
      split_ifs at hz
      · exact Operand.splat_place hz
      · cases hz
        rfl
    · obtain ⟨w, hw, hwy⟩ := widenSources_place hzs y hy
      exact ⟨w, List.mem_cons_of_mem _ hw, hwy⟩

/-- The lines of an overload work on its operands. -/
theorem emit_on {dst : Operand} {args scratch : List Operand} {is : List Instruction}
    (h : f.emit dst args scratch = .ok is) :
    ∀ i ∈ is, (∃ p ∈ f.body, i.mnemonic = p.mnemonic) ∧ i.On (dst :: args ++ scratch) := by
  obtain ⟨xs, hplace, h⟩ : ∃ xs : List Operand, (∀ y ∈ xs, ∃ x ∈ args, y.place = x.place) ∧
      f.body.mapM (fun p => p.instantiate ⟨dst, xs, scratch⟩) = .ok is := by
    unfold emit at h
    split_ifs at h
    · obtain ⟨xs, hxs, h⟩ := except_bind_eq_ok.mp h
      exact ⟨xs, widenSources_place hxs, h⟩
    · exact ⟨args, fun y hy => ⟨y, hy, rfl⟩, h⟩
  intro i hi
  obtain ⟨p, hp, hpi⟩ := of_mem_mapM_except h i hi
  obtain ⟨hmnemonic, hon⟩ := Pattern.instantiate_on hpi
  refine ⟨⟨p, hp, hmnemonic⟩, hon.of_places fun y hy => ?_⟩
  simp only [Operands.supplied, List.mem_cons, List.mem_append] at hy
  rcases hy with rfl | hy | hy
  · exact ⟨y, by simp, rfl⟩
  · obtain ⟨x, hx, hyx⟩ := hplace y hy
    exact ⟨x, by simp [hx], hyx⟩
  · exact ⟨y, by simp [hy], rfl⟩

theorem references_emit (hf : ∀ p ∈ f.body, p.mnemonic.references = []) {dst : Operand}
    {args scratch : List Operand} {is : List Instruction} (h : f.emit dst args scratch = .ok is) :
    ∀ i ∈ is, i.references ⊆ (dst :: args ++ scratch).flatMap fun x => x.place.references := by
  intro i hi
  obtain ⟨⟨p, hp, hmnemonic⟩, hon⟩ := emit_on h i hi
  have hrefers := hon.references
  rw [hmnemonic, hf p hp, List.nil_append] at hrefers
  exact hrefers

end Overload

/-! ### No operation takes a sample -/

theorem Mnemonic.numeric_references {float double int uint m : Mnemonic} {k : Kind}
    (hall : ∀ m ∈ [float, double, int, uint], m.references = [])
    (h : numeric float double int uint k = some m) : m.references = [] := by
  unfold numeric at h
  split at h <;> cases h <;> exact hall _ (by simp)

theorem Mnemonic.bitwise_references {n m : Mnemonic} {k : Kind} (hn : n.references = [])
    (h : bitwise n k = some m) : m.references = [] := by
  unfold bitwise at h
  split at h <;> cases h <;> exact hn

theorem Mnemonic.equality_references {float double other m : Mnemonic} {k : Kind}
    (hall : ∀ m ∈ [float, double, other], m.references = [])
    (h : equality float double other k = some m) : m.references = [] := by
  unfold equality at h
  split at h <;> cases h <;> exact hall _ (by simp)

theorem Kind.conversion_references {target source : Kind} {m : Mnemonic} {per : Bool}
    (h : target.conversion source = some (m, per)) : m.references = [] := by
  unfold conversion at h
  split at h
  case h_2 | h_3 => cases h
  case h_16 =>
    split_ifs at h
    cases h
    rfl
  all_goals
    cases h
    rfl

namespace Overload

/-- No line of the overload takes a sample. -/
def SampleFree (f : Overload) : Prop := ∀ p ∈ f.body, p.mnemonic.references = []

variable {a b c : ValueType} {f : Overload}

theorem unaryDirect_sampleFree {op : Opcode} {m : Mnemonic} (hm : m.references = []) :
    (unaryDirect op a b m).SampleFree := by
  simpa [SampleFree, unaryDirect, Pattern.direct] using hm

theorem negation_sampleFree (h : negation a = some f) : f.SampleFree := by
  unfold negation at h
  split at h <;> cases h
  · simp [SampleFree, Mnemonic.references]
  · simp [SampleFree, Mnemonic.references]
  · exact unaryDirect_sampleFree rfl

theorem floatOnly_sampleFree {op : UnaryOp} {m : Mnemonic} (hm : m.references = [])
    (h : floatOnly op m a = some f) : f.SampleFree := by
  unfold floatOnly at h
  split_ifs at h
  cases h
  exact unaryDirect_sampleFree hm

theorem cast_sampleFree (h : cast a b = some f) : f.SampleFree := by
  unfold cast at h
  split_ifs at h
  split at h
  · cases h
  · rename_i m hm
    cases h
    exact unaryDirect_sampleFree (Kind.conversion_references hm)
  · rename_i m hm
    cases h
    simpa [SampleFree, Pattern.perComponent] using fun _ _ => Kind.conversion_references hm

theorem bitcast_sampleFree (h : bitcast a b = some f) : f.SampleFree := by
  unfold bitcast at h
  split_ifs at h
  cases h
  exact unaryDirect_sampleFree rfl

theorem lanewise_sampleFree {op : BinaryOp} {table : Kind → Option Mnemonic}
    (htable : ∀ k m, table k = some m → m.references = []) (h : lanewise op table a b = some f) :
    f.SampleFree := by
  obtain ⟨result, -, h⟩ := Option.bind_eq_some_iff.mp h
  obtain ⟨m, hm, h⟩ := Option.bind_eq_some_iff.mp h
  cases h
  simpa [SampleFree, Pattern.direct] using htable _ m hm

theorem compare_sampleFree {op : BinaryOp} {table : Kind → Option Mnemonic} {swap : Bool}
    (htable : ∀ k m, table k = some m → m.references = [])
    (h : compare op table swap a b = some f) : f.SampleFree := by
  obtain ⟨common, -, h⟩ := Option.bind_eq_some_iff.mp h
  obtain ⟨m, hm, h⟩ := Option.bind_eq_some_iff.mp h
  split_ifs at h
  all_goals
    cases h
    simpa [SampleFree] using htable _ m hm

theorem difference_sampleFree (h : difference a b = some f) : f.SampleFree := by
  obtain ⟨result, -, h⟩ := Option.bind_eq_some_iff.mp h
  simp only at h
  split at h <;> cases h <;> simp [SampleFree, Pattern.direct, Mnemonic.references]

theorem remainder_sampleFree (h : remainder a b = some f) : f.SampleFree := by
  obtain ⟨result, -, h⟩ := Option.bind_eq_some_iff.mp h
  simp only at h
  split at h <;> cases h <;> simp [SampleFree, Pattern.direct, Mnemonic.references]

theorem shift_sampleFree {op : BinaryOp} {signed unsigned : Mnemonic} (hs : signed.references = [])
    (hu : unsigned.references = []) (h : shift op signed unsigned a b = some f) : f.SampleFree := by
  simp only [shift] at h
  split at h
  · rename_i m hm
    split_ifs at h
    cases h
    have hreferences : m.references = [] := by
      split at hm <;> cases hm
      · exact hs
      · exact hu
    simpa [SampleFree, Pattern.direct] using hreferences
  · cases h

theorem dot_sampleFree (h : dot a b = some f) : f.SampleFree := by
  unfold dot at h
  split_ifs at h
  split at h <;> cases h <;> simp [SampleFree, Pattern.direct, Mnemonic.references]

theorem merge_sampleFree (h : merge a b = some f) : f.SampleFree := by
  simp only [merge] at h
  split_ifs at h
  split at h
  · cases h
  · rename_i m per hm
    cases h
    have hreferences := Kind.conversion_references hm
    intro p hp
    rcases List.mem_cons.mp hp with rfl | hp
    · rfl
    · split_ifs at hp
      · obtain ⟨i, -, rfl⟩ := List.mem_map.mp hp
        exact hreferences
      · obtain rfl := List.mem_singleton.mp hp
        exact hreferences

theorem multiplyAdd_sampleFree (h : multiplyAdd a b c = some f) : f.SampleFree := by
  obtain ⟨_, -, h⟩ := Option.bind_eq_some_iff.mp h
  obtain ⟨_, -, h⟩ := Option.bind_eq_some_iff.mp h
  obtain ⟨m, hm, h⟩ := Option.bind_eq_some_iff.mp h
  cases h
  simpa [SampleFree, Pattern.direct] using Mnemonic.numeric_references (by decide) hm

theorem choice_sampleFree (h : choice a b c = some f) : f.SampleFree := by
  obtain ⟨result, -, h⟩ := Option.bind_eq_some_iff.mp h
  split_ifs at h
  cases h
  simp [SampleFree, Pattern.direct, Mnemonic.references]

theorem align_sampleFree {op : TernaryOp} {m : Mnemonic} (hm : m.references = [])
    (h : align op m a b c = some f) : f.SampleFree := by
  unfold align at h
  split_ifs at h
  cases h
  simpa [SampleFree, Pattern.perComponent] using fun _ _ => hm

theorem bitInsert_sampleFree (h : bitInsert a b c = some f) : f.SampleFree := by
  unfold bitInsert at h
  split_ifs at h
  cases h
  simp [SampleFree, Pattern.direct, Mnemonic.references]

theorem bitExtract_sampleFree (h : bitExtract a b c = some f) : f.SampleFree := by
  simp only [bitExtract] at h
  split_ifs at h
  split at h <;> cases h <;> simp [SampleFree, Pattern.direct, Mnemonic.references]

end Overload

section Table

variable {f : Overload} {a b c r : ValueType}

theorem UnaryOp.sampleFree {op : UnaryOp} (h : op.overload? a = some f) : f.SampleFree := by
  unfold overload? at h
  rw [Option.ite_none_right_eq_some] at h
  obtain ⟨-, h⟩ := h
  cases op
  case neg => exact Overload.negation_sampleFree h
  case bitNot | not =>
    simp only at h
    split_ifs at h
    cases h
    exact Overload.unaryDirect_sampleFree rfl
  all_goals exact Overload.floatOnly_sampleFree rfl h

theorem Conversion.sampleFree {op : Conversion} (h : op.overload? r a = some f) : f.SampleFree := by
  unfold overload? at h
  split_ifs at h
  cases op
  case cast => exact Overload.cast_sampleFree h
  case bitcast => exact Overload.bitcast_sampleFree h

theorem BinaryOp.sampleFree {op : BinaryOp} (h : op.overload? a b = some f) : f.SampleFree := by
  unfold overload? at h
  split_ifs at h
  cases op
  case sub => exact Overload.difference_sampleFree h
  case mod => exact Overload.remainder_sampleFree h
  case shl | shr => exact Overload.shift_sampleFree rfl rfl h
  case and | or | xor =>
    exact Overload.lanewise_sampleFree (fun _ _ => Mnemonic.bitwise_references rfl) h
  case eq | ne =>
    exact Overload.compare_sampleFree (fun _ _ => Mnemonic.equality_references (by decide)) h
  case lt | le | gt | ge =>
    exact Overload.compare_sampleFree (fun _ _ => Mnemonic.numeric_references (by decide)) h
  case dot => exact Overload.dot_sampleFree h
  case merge => exact Overload.merge_sampleFree h
  all_goals
    exact Overload.lanewise_sampleFree (fun _ _ => Mnemonic.numeric_references (by decide)) h

theorem TernaryOp.sampleFree {op : TernaryOp} (h : op.overload? a b c = some f) : f.SampleFree := by
  unfold overload? at h
  split_ifs at h
  cases op
  case mad => exact Overload.multiplyAdd_sampleFree h
  case select => exact Overload.choice_sampleFree h
  case bitAlign | byteAlign => exact Overload.align_sampleFree rfl h
  case bitInsert => exact Overload.bitInsert_sampleFree h
  case bitExtract => exact Overload.bitExtract_sampleFree h

end Table

end ShaderIL
