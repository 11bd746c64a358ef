import ShaderIL.Proofs.Assembler.Declarations
import ShaderIL.Proofs.Expr.Names

/-!
# Fields of constant buffers

A field is accepted if its buffer has a slot and a size, its element lies in the buffer, and its lanes
can be read back from its text. `lastPart` is what stands behind the last dot of the lanes, all of them
if they have none. It must spell a pattern with as many letters as the type has lanes, unless it has a
bracket: then the whole text is a name, whatever it says (`operand_ok_iff`). Lanes without dots and
brackets are accepted if and only if they spell such a pattern, and the operand then prints as it was
given (`field_checked_exactly`).
-/

namespace ShaderIL

/-! ### The part behind the last dot -/

namespace Text

variable {w : String}

/-- What stands behind the last dot of a text, the text itself if it has none. -/
def lastPart (s : String) : String :=
  String.ofList (s.toList.reverse.takeWhile (· != '.')).reverse

/-- The text has a bracket. -/
def Bracketed (w : String) : Prop := '[' ∈ w.toList ∨ ']' ∈ w.toList

instance (w : String) : Decidable (Bracketed w) := inferInstanceAs (Decidable (_ ∨ _))

/-- The text is a word over the lane letters, one for each lane of the type. -/
def Spells (t : ValueType) (w : String) : Prop :=
  (∀ c ∈ w.toList, c ∈ Lane.letters) ∧ w.toList.length = t.lanes

theorem dot_not_mem_lastPart (s : String) : '.' ∉ (lastPart s).toList := by
  intro hdot
  rw [lastPart, String.toList_ofList, List.mem_reverse] at hdot
  exact absurd (List.mem_takeWhile_imp hdot) (by decide)

theorem lastPart_of_not_mem {s : String} (h : '.' ∉ s.toList) : lastPart s = s := by
  have hall : ∀ c ∈ s.toList.reverse, (c != '.') = true := by
    intro c hc
    rw [List.mem_reverse] at hc
    exact bne_iff_ne.mpr fun hdot => h (hdot ▸ hc)
  rw [lastPart, List.takeWhile_eq_self_iff.mpr hall, List.reverse_reverse, String.ofList_toList]

theorem exists_front (name s : String) : ∃ front, name ++ "." ++ s = front ++ "." ++ lastPart s := by
  by_cases hdot : '.' ∈ s.toList
  · obtain ⟨before, after, hcut, hafter⟩ := Operand.exists_lastDot hdot
    have hall : ∀ c ∈ after.reverse, (c != '.') = true := by
      intro c hc
      rw [List.mem_reverse] at hc
      exact bne_iff_ne.mpr fun hc' => hafter (hc' ▸ hc)
    have hlast : lastPart s = String.ofList after := by
      rw [lastPart, hcut, List.reverse_append, List.reverse_cons, List.append_assoc,
        List.takeWhile_append_of_pos hall]
      simp
    refine ⟨name ++ "." ++ String.ofList before, ?_⟩
    rw [← String.toList_inj, hlast]
    simp [hcut]
  · exact ⟨name, by rw [lastPart_of_not_mem hdot]⟩

theorem spells_iff {t : ValueType} : Spells t w ↔ ∃ s : Swizzle, s.text = w ∧ s.count = t.lanes := by
  constructor
  · rintro ⟨hletters, hlength⟩
    obtain ⟨s, rfl⟩ := Swizzle.exists_text_iff.mpr hletters
    exact ⟨s, rfl, s.count_eq_length_text.trans hlength⟩
  · rintro ⟨s, rfl, hcount⟩
    exact ⟨Swizzle.exists_text_iff.mp ⟨s, rfl⟩, s.count_eq_length_text.symm.trans hcount⟩

theorem Spells.not_bracketed {t : ValueType} (h : Spells t w) : ¬ Bracketed w := by
  rintro (hc | hc)
  · exact absurd (h.1 _ hc) (by decide)
  · exact absurd (h.1 _ hc) (by decide)

theorem Spells.dot_not_mem {t : ValueType} (h : Spells t w) : '.' ∉ w.toList := fun hc =>
  absurd (h.1 _ hc) (by decide)

/-! ### Bytes -/

variable {bytes : List UInt8}

/-- The text with one character for each byte. -/
def ofBytes (bytes : List UInt8) : String := String.ofList (bytes.map Char.ofUInt8)

/-- What stands behind the last dot of a byte string, the string itself if it has none. -/
def lastBytes (bytes : List UInt8) : List UInt8 := (bytes.reverse.takeWhile (· != 46)).reverse

theorem ofUInt8_injective : Function.Injective Char.ofUInt8 := by
  intro a b h
  have htoNat : ∀ c : UInt8, (Char.ofUInt8 c).toNat = c.toNat := fun c => UInt8.toNat_toUInt32 c
  have hvalue : (Char.ofUInt8 a).toNat = (Char.ofUInt8 b).toNat := congrArg Char.toNat h
  rw [htoNat, htoNat] at hvalue
  exact UInt8.toNat_inj.mp hvalue

theorem ofUInt8_mem_ofBytes {b : UInt8} : Char.ofUInt8 b ∈ (ofBytes bytes).toList ↔ b ∈ bytes := by
  rw [ofBytes, String.toList_ofList, List.mem_map_of_injective ofUInt8_injective]

theorem lastPart_ofBytes (bytes : List UInt8) :
    lastPart (ofBytes bytes) = ofBytes (lastBytes bytes) := by
  have hdot : ((· != '.') ∘ Char.ofUInt8) = (· != (46 : UInt8)) := by
    funext b
    rw [Bool.eq_iff_iff, Function.comp_apply, bne_iff_ne, bne_iff_ne]
    exact ofUInt8_injective.ne_iff (y := 46)
  rw [lastPart, ofBytes, String.toList_ofList, ← List.map_reverse, List.takeWhile_map, hdot,
    ← List.map_reverse]
  rfl

theorem bracketed_ofBytes : Bracketed (ofBytes bytes) ↔ 91 ∈ bytes ∨ 93 ∈ bytes :=
  or_congr (ofUInt8_mem_ofBytes (b := 91)) (ofUInt8_mem_ofBytes (b := 93))

theorem spells_ofBytes {t : ValueType} : Spells t (ofBytes bytes) ↔
    (∀ b ∈ bytes, b ∈ [120, 121, 122, 119]) ∧ bytes.length = t.lanes := by
  have hletters : Lane.letters = ([120, 121, 122, 119] : List UInt8).map Char.ofUInt8 := by decide
  simp only [Spells, hletters, ofBytes, String.toList_ofList, List.length_map, List.forall_mem_map,
    List.mem_map_of_injective ofUInt8_injective]

end Text

open Text

/-! ### Reading a text with a dot -/

namespace Operand

variable {t : ValueType} {front w name : String} {s : Swizzle}

/-- A bracket behind the last dot makes the whole text a name. -/
theorem parseText_of_bracketed (hdot : '.' ∉ w.toList) (hw : Bracketed w) :
    parseText (front ++ "." ++ w) t = .ok (front ++ "." ++ w, Swizzle.identity t.lanes) := by
  refine parseText_of_name fun before after hcut hafter => ?_
  have hsplit := splitLastDot?_append before hafter
  have htext : (front ++ "." ++ w).toList = front.toList ++ '.' :: w.toList := by simp
  rw [← hcut, htext, splitLastDot?_append _ hdot] at hsplit
  cases hsplit
  exact hw

/-- Without a bracket behind the last dot, the text is a name and the lanes spelled there. -/
theorem parseText_eq_ok_iff (ht : t.valid = true) (hdot : '.' ∉ w.toList) (hw : ¬ Bracketed w) :
    parseText (front ++ "." ++ w) t = .ok (name, s) ↔
      name = front ∧ s.text = w ∧ s.count = t.lanes := by
  unfold Bracketed at hw
  rw [not_or] at hw
  constructor
  · intro h
    rw [parseText_of_suffix hdot hw.1 hw.2] at h
    obtain ⟨s', hparse, h⟩ := except_bind_eq_ok.mp h
    split_ifs at h with hcount
    cases h
    exact ⟨rfl, (Swizzle.parse_eq_ok_iff.mp hparse).1.symm, hcount⟩
  · rintro ⟨rfl, rfl, hcount⟩
    exact parseText_of_lanes s ht hcount

/-- The four lanes in order are left out of a text. -/
theorem laneText_of_count (ht : t.valid = true) (hcount : s.count = t.lanes) (name : String) :
    laneText name s = name ++ if s.text = "xyzw" then "" else "." ++ s.text := by
  have hpos := ValueType.lanes_pos ht
  have hle := ValueType.lanes_le_four ht
  have hparse : Swizzle.parse s.text = .ok s :=
    Swizzle.parse_eq_ok_iff.mpr ⟨rfl, by omega, by omega⟩
  have hfour : s = Swizzle.identity 4 ↔ s.text = "xyzw" := by
    refine ⟨fun h => by rw [h]; rfl, fun h => ?_⟩
    rw [h] at hparse
    exact (Except.ok.inj hparse).symm
  unfold laneText
  by_cases hid : s = Swizzle.identity 4
  · rw [if_pos (hfour.mp hid), hid]
    simp
  · rw [if_neg fun h => hid (hfour.mpr h)]
    simp [hid, String.append_assoc]

end Operand

/-! ### Acceptance -/

namespace BufferField

variable {f : BufferField} {lanes : String} {o : Operand}

/-- The buffer has a slot and a size, and the element lies in it. -/
def InRange (f : BufferField) : Prop := 0 ≤ f.slot ∧ 0 < f.size ∧ 0 ≤ f.index ∧ f.index < f.size

theorem operand_ok_inRange_iff : f.operand = .ok o ↔
    f.InRange ∧ externalOperand f.placeOf f.type f.text = .ok o := by
  unfold operand InRange
  simp only [Bool.or_eq_true, decide_eq_true_eq]
  split_ifs with hshape hindex
  · have : ¬ (0 ≤ f.slot ∧ 0 < f.size ∧ 0 ≤ f.index ∧ f.index < f.size) := by omega
    simp [this]
  · have : ¬ (0 ≤ f.slot ∧ 0 < f.size ∧ 0 ≤ f.index ∧ f.index < f.size) := by omega
    simp [this]
  · have : 0 ≤ f.slot ∧ 0 < f.size ∧ 0 ≤ f.index ∧ f.index < f.size := by omega
    simp [this]

theorem text_placeOf (f : BufferField) (name : String) : (f.placeOf name).text = name := by
  unfold placeOf
  split_ifs with h
  · exact (beq_iff_eq.mp h).symm
  · rfl

theorem text_of_lanes (hlanes : f.lanes = some lanes) : f.text = f.place.text ++ "." ++ lanes := by
  simp [text, hlanes, String.append_assoc]

/-- **Fields are accepted** if they are in range and the last part of their lanes has a bracket or
spells a pattern for the type. -/
theorem operand_ok_iff (ht : f.type.valid = true) (hlanes : f.lanes = some lanes) :
    (∃ o, f.operand = .ok o) ↔
      f.InRange ∧ (Bracketed (lastPart lanes) ∨ Spells f.type (lastPart lanes)) := by
  obtain ⟨front, hfront⟩ := exists_front f.place.text lanes
  have hdot := dot_not_mem_lastPart lanes
  simp only [operand_ok_inRange_iff, externalOperand, ht, if_true, exists_and_left]
  refine and_congr_right fun _ => ?_
  rw [text_of_lanes hlanes, hfront]
  by_cases hw : Bracketed (lastPart lanes)
  · have hread : ∃ o, Operand.ofText f.placeOf (front ++ "." ++ lastPart lanes) f.type = .ok o := by
      rw [Operand.ofText, Operand.parseText_of_bracketed hdot hw]
      exact ⟨_, rfl⟩
    exact iff_of_true hread (.inl hw)
  · constructor
    · rintro ⟨o, ho⟩
      obtain ⟨⟨name, s⟩, hparse, -⟩ := except_bind_eq_ok.mp ho
      obtain ⟨-, hs, hcount⟩ := (Operand.parseText_eq_ok_iff ht hdot hw).mp hparse
      exact .inr (spells_iff.mpr ⟨s, hs, hcount⟩)
    · rintro (hw' | hspells)
      · exact absurd hw' hw
      · obtain ⟨s, hs, hcount⟩ := spells_iff.mp hspells
        rw [Operand.ofText, (Operand.parseText_eq_ok_iff ht hdot hw).mpr ⟨rfl, hs, hcount⟩]
        exact ⟨_, rfl⟩

theorem text_of_bracketed (hlanes : f.lanes = some lanes) (hw : Bracketed (lastPart lanes))
    (h : f.operand = .ok o) : o.text = laneText f.text (Swizzle.identity f.type.lanes) := by
  obtain ⟨front, hfront⟩ := exists_front f.place.text lanes
  obtain ⟨-, htext⟩ := operand_text h
  have hparse : Operand.parseText (front ++ "." ++ lastPart lanes) f.type =
      .ok (front ++ "." ++ lastPart lanes, Swizzle.identity f.type.lanes) :=
    Operand.parseText_of_bracketed (dot_not_mem_lastPart lanes) hw
  rw [← hfront, ← text_of_lanes hlanes] at hparse
  rw [Operand.ofText, hparse] at htext
  cases htext
  rw [Operand.text, Operand.name, text_placeOf]

/-- The text of an accepted field without one: as given, or without the four lanes in order. -/
theorem text_of_not_bracketed (hlanes : f.lanes = some lanes) (hw : ¬ Bracketed (lastPart lanes))
    (h : f.operand = .ok o) : ∃ front, f.text = front ++ "." ++ lastPart lanes ∧
      o.text = front ++ if lastPart lanes = "xyzw" then "" else "." ++ lastPart lanes := by
  obtain ⟨front, hfront⟩ := exists_front f.place.text lanes
  obtain ⟨ht, htext⟩ := operand_text h
  rw [text_of_lanes hlanes, hfront] at htext ⊢
  obtain ⟨⟨name, s⟩, hparse, ho⟩ := except_bind_eq_ok.mp htext
  cases ho
  obtain ⟨rfl, hs, hcount⟩ :=
    (Operand.parseText_eq_ok_iff ht (dot_not_mem_lastPart lanes) hw).mp hparse
  refine ⟨name, rfl, ?_⟩
  rw [Operand.text, Operand.name, text_placeOf, Operand.laneText_of_count ht hcount, hs]

/-- The text of an accepted field whose lanes are a pattern. -/
theorem text_of_spells (hlanes : f.lanes = some lanes) (hspells : Spells f.type lanes)
    (h : f.operand = .ok o) :
    o.text = f.place.text ++ if lanes = "xyzw" then "" else "." ++ lanes := by
  have hlast := lastPart_of_not_mem hspells.dot_not_mem
  have hw : ¬ Bracketed (lastPart lanes) := by rw [hlast]; exact hspells.not_bracketed
  obtain ⟨front, hfront, htext⟩ := text_of_not_bracketed hlanes hw h
  rw [hlast] at hfront htext
  have hplace : f.place.text = front := by
    rw [text_of_lanes hlanes, ← String.toList_inj] at hfront
    simp only [String.toList_append, List.append_cancel_right_eq] at hfront
    exact String.toList_inj.mp hfront
  rw [htext, hplace]

end BufferField

/-! ### Use -/

namespace Expr

variable {f : BufferField} {lanes : String}

theorem field_errors_eq_nil_iff (unit : Option UnitId) :
    (field f).errors unit = [] ↔ ∃ o, f.operand = .ok o := by
  unfold errors
  cases hoperand : f.operand with
  | ok o => simp [errorOf]
  | error err => simp [errorOf]

theorem eval_field {s : Assembler} {o : Operand} (ho : f.operand = .ok o)
    (hphase : s.phase = .building) (hreport : s.report = none) :
    s.eval (field f) = .ok (.ok o, { s with draft :=
      { s.draft with buffers := s.draft.buffers.insert f.slot f.size } }) := by
  have hclean := (field_errors_eq_nil_iff (some s.unit)).mpr ⟨o, ho⟩
  have hemit : (field f).emit s.target s.draft =
      .ok (o, { s.draft with buffers := s.draft.buffers.insert f.slot f.size }) := orFault_ok ho _
  rw [Assembler.eval_of_clean hphase hreport hclean, Assembler.emitting_ok hemit]
  rfl

/-- **Fields of constant buffers are checked up to what follows the last dot.** A field of a standard
type is accepted if and only if its buffer has a slot and a size, its element lies in the buffer, and
the part of its lanes behind their last dot has a bracket or is a word of lane letters, one for each
lane of the type. For lanes without dots and brackets that is to say that they are such a word. Lanes
that are a byte string are checked by their bytes.

An accepted field evaluates wherever a unit is open without an error. It adds its buffer to the draft
and nothing else, so that the unit, closed then, declares the slot once and with the size. With lanes
that are such a word its operand is the element followed by the lanes, which are left out if they are
all four in order. Otherwise it is the text of the field, from which four lanes in order are dropped,
or to which the lanes of the type are added if it has a bracket behind its last dot. -/
theorem field_checked_exactly (ht : f.type ∈ ValueType.catalog) (hlanes : f.lanes = some lanes) :
    (∀ unit, (field f).errors unit = [] ↔
      (0 ≤ f.slot ∧ 0 < f.size ∧ 0 ≤ f.index ∧ f.index < f.size) ∧
        (Bracketed (lastPart lanes) ∨ Spells f.type (lastPart lanes))) ∧
    ('.' ∉ lanes.toList → '[' ∉ lanes.toList → ']' ∉ lanes.toList → ∀ unit,
      ((field f).errors unit = [] ↔
        (0 ≤ f.slot ∧ 0 < f.size ∧ 0 ≤ f.index ∧ f.index < f.size) ∧ Spells f.type lanes)) ∧
    (∀ bytes : List UInt8, lanes = ofBytes bytes → ∀ unit, ((field f).errors unit = [] ↔
      (0 ≤ f.slot ∧ 0 < f.size ∧ 0 ≤ f.index ∧ f.index < f.size) ∧
        ((91 ∈ lastBytes bytes ∨ 93 ∈ lastBytes bytes) ∨
          (∀ b ∈ lastBytes bytes, b ∈ [120, 121, 122, 119]) ∧
            (lastBytes bytes).length = f.type.lanes))) ∧
    ∀ s : Assembler, s.phase = .building → s.report = none → (field f).errors (some s.unit) = [] →
      ∃ o s', s.eval (field f) = .ok (.ok o, s') ∧
        s' = { s with draft := { s.draft with
          buffers := s.draft.buffers.insert f.slot f.size } } ∧
        (Spells f.type lanes → o.text = "cb" ++ toString f.slot ++ "[" ++ toString f.index ++ "]" ++
          if lanes = "xyzw" then "" else "." ++ lanes) ∧
        (¬ Bracketed (lastPart lanes) → ∃ front, f.text = front ++ "." ++ lastPart lanes ∧
          o.text = front ++ if lastPart lanes = "xyzw" then "" else "." ++ lastPart lanes) ∧
        (Bracketed (lastPart lanes) →
          o.text = laneText f.text (Swizzle.identity f.type.lanes)) ∧
        ∀ (s₀ start : Assembler) (calls : List Call) (order : Traversal), s₀.begin = .ok start →
          start.followAll calls = .ok s → ∃ closed, s'.finish order = .ok closed ∧
            closed.headerLinesFrom ("dcl_cb cb" ++ toString f.slot ++ "[") =
              ["dcl_cb cb" ++ toString f.slot ++ "[" ++ toString f.size ++ "]\n"] := by
  have hall : ∀ t ∈ ValueType.catalog, t.valid = true := by decide
  have hvalid := hall f.type ht
  refine ⟨fun unit => ?_, fun hdot hopen hclose unit => ?_, fun bytes hbytes unit => ?_,
    fun s hphase hreport hclean => ?_⟩
  · rw [field_errors_eq_nil_iff, BufferField.operand_ok_iff hvalid hlanes]
    rfl
  · have hw : ¬ Bracketed lanes := fun h => h.elim hopen hclose
    rw [field_errors_eq_nil_iff, BufferField.operand_ok_iff hvalid hlanes, lastPart_of_not_mem hdot,
      or_iff_right hw]
    rfl
  · rw [field_errors_eq_nil_iff, BufferField.operand_ok_iff hvalid hlanes, hbytes, lastPart_ofBytes,
      bracketed_ofBytes, spells_ofBytes]
    rfl
  · obtain ⟨o, ho⟩ := (field_errors_eq_nil_iff _).mp hclean
    refine ⟨o, _, eval_field ho hphase hreport, rfl,
      fun hspells => BufferField.text_of_spells hlanes hspells ho,
      fun hw => BufferField.text_of_not_bracketed hlanes hw ho,
      fun hw => BufferField.text_of_bracketed hlanes hw ho, fun s₀ start calls order hbegin hcalls => ?_⟩
    have hascending : (s.draft.buffers.insert f.slot f.size).Ascending :=
      (Assembler.buffers_ascending hbegin hcalls).insert
    let d : Draft := { s.draft with buffers := s.draft.buffers.insert f.slot f.size }
    have hfinish := Assembler.finish_of_report_none (s := { s with draft := d }) hphase hreport order
    refine ⟨_, hfinish, ?_⟩
    refine Assembler.headerLinesFrom_bufferFront rfl hascending ?_
    rw [SlotTable.get?_insert]
    simp

/-- The premises can be met: the last element of a buffer, two of its lanes in another order. -/
theorem field_of_last_element :
    let f : BufferField := ⟨3, 8, 7, .float2, some "wy"⟩
    let s : Assembler := { phase := .building, generation := 1 }
    (field f).errors (some s.unit) = [] ∧ ∃ o s', s.eval (field f) = .ok (.ok o, s') ∧
      o.text = "cb3[7].wy" ∧ ∃ closed, s'.finish = .ok closed ∧
        closed.headerLinesFrom "dcl_cb cb3[" = ["dcl_cb cb3[8]\n"] := by
  intro f s
  have hbegin : ({} : Assembler).begin = .ok s := rfl
  have hspells : Spells .float2 "wy" := spells_iff.mpr ⟨⟨[.w, .y]⟩, rfl, rfl⟩
  obtain ⟨-, hplain, -, huse⟩ := field_checked_exactly (f := f) (by decide) rfl
  have hclean : (field f).errors (some s.unit) = [] :=
    (hplain (by decide) (by decide) (by decide) _).mpr ⟨by decide, hspells⟩
  obtain ⟨o, s', heval, -, htext, -, -, hdeclared⟩ := huse s rfl rfl hclean
  refine ⟨hclean, o, s', heval, htext hspells, hdeclared {} s [] _ hbegin rfl⟩

/-- Lanes that are no word of lane letters are accepted if a bracket ends them, or if such a word
follows a dot in them. -/
theorem field_accepts_stray_lanes :
    (field ⟨0, 1, 0, .float1, some "x]"⟩).errors none = [] ∧ ¬ Spells .float1 "x]" ∧
    (field ⟨0, 1, 0, .float1, some "q.x"⟩).errors none = [] ∧ ¬ Spells .float1 "q.x" := by
  have hclean : ∀ lanes, Bracketed (lastPart lanes) ∨ Spells .float1 (lastPart lanes) →
      (field ⟨0, 1, 0, .float1, some lanes⟩).errors none = [] := by
    intro lanes h
    have hiff := BufferField.operand_ok_iff (f := ⟨0, 1, 0, .float1, some lanes⟩) rfl rfl
    have hrange : BufferField.InRange ⟨0, 1, 0, .float1, some lanes⟩ := by simp [BufferField.InRange]
    exact (field_errors_eq_nil_iff none).mpr (hiff.mpr ⟨hrange, h⟩)
  have hbracket : lastPart "x]" = "x]" := lastPart_of_not_mem (by decide)
  have hdotted : lastPart "q.x" = "x" := by decide
  refine ⟨hclean _ (.inl ?_), fun h => absurd h.2 (by decide), hclean _ (.inr ?_),
    fun h => absurd h.2 (by decide)⟩
  · rw [hbracket]
    decide
  · rw [hdotted]
    exact spells_iff.mpr ⟨⟨[.x]⟩, rfl, rfl⟩

end Expr

end ShaderIL
