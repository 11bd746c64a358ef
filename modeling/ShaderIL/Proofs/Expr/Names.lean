import ShaderIL.Proofs.Expr.Places
import ShaderIL.Proofs.Expr.Selection
import ShaderIL.Proofs.Text.Operand

/-!
# Names in the code of a tree

A place is `Plain` if its name is of the assembler's making: it is a register, or an element of the
global buffer whose base is one, and no text given from outside stands in it. The name of a plain place
shows where it ends and has no line break. A tree is `Canonical` if it gives no operand by its text and
the lanes of its constant-buffer fields are patterns; the code of such a tree is plain, and its operand
is a register (`Canonical.leaves`). Hence an operand that evaluation returns can be handed on as text:
the leaf of that text has the same type and the same operand (`operand_text_round_trips`). A tree has
`FlatNames` if no text that it gives has a line break; then no name in its code has one.
-/

namespace ShaderIL

/-! ### Plain places -/

/-- The place is a register with a name of the assembler's making. -/
def Place.Register : Place → Prop
  | temp _ | literal _ | threadId | windowPosition => True
  | constant slot i => 0 ≤ slot ∧ 0 ≤ i
  | globalAt _ | globalFrom _ _ _ | named _ => False

/-- The place is a register, or an element of the global buffer whose base is one. -/
def Place.Plain : Place → Prop
  | globalAt _ => True
  | globalFrom base _ _ => base.Register
  | p => p.Register

namespace Place

variable {p : Place}

theorem Register.plain (h : p.Register) : p.Plain := by
  cases p with
  | globalAt | globalFrom => exact h.elim
  | _ => exact h

theorem dot_not_mem_constant (slot i : Int) : '.' ∉ (constant slot i).text.toList := by
  have hnumber : ∀ n : Int, '.' ∉ (toString n).toList := Text.not_mem_toString_int (by decide)
  simp only [text, String.toList_append, List.mem_append, hnumber, or_false]
  simp

theorem Plain.readable (h : p.Plain) : Operand.Readable p.text := by
  have hnumber : ∀ n : Nat, '.' ∉ (toString n).toList := Text.not_mem_toString_nat (by decide)
  cases p with
  | temp n | literal n =>
    left
    simp only [text, String.toList_append, List.mem_append, hnumber, or_false]
    simp
  | constant slot i => exact .inl (dot_not_mem_constant slot i)
  | globalAt offset | globalFrom base lanes offset =>
    right
    simp only [text, String.toList_append, List.getLast?_append]
    simp
  | threadId | windowPosition => exact .inl (by simp [text])
  | named name => exact h.elim

theorem flat_offsetText (offset : Int64) : Text.Flat (offsetText offset) := by
  unfold offsetText
  split_ifs
  · rw [Text.flat_append]
    exact ⟨by simp [Text.Flat], Text.flat_toString_int _⟩
  · rw [Text.flat_append]
    exact ⟨by simp [Text.Flat], Text.flat_toString_int _⟩
  · simp [Text.Flat]

theorem flat_globalFrom {base : Place} (h : Text.Flat base.text) (lanes : Swizzle) (offset : Int64) :
    Text.Flat (globalFrom base lanes offset).text := by
  simp only [text, Text.flat_append, Text.flat_laneText h, flat_offsetText, and_true]
  simp [Text.Flat]

theorem Register.flat (h : p.Register) : Text.Flat p.text := by
  cases p with
  | temp n | literal n =>
    simp only [text, Text.flat_append, Text.flat_toString_nat, and_true]
    simp [Text.Flat]
  | constant slot i =>
    simp only [text, Text.flat_append, Text.flat_toString_int, and_true]
    simp [Text.Flat]
  | threadId | windowPosition => simp [text, Text.Flat]
  | globalAt | globalFrom | named => exact h.elim

theorem flat_globalAt (offset : Int64) : Text.Flat (globalAt offset).text := by
  simp only [text, Text.flat_append, Text.flat_toString_int, and_true]
  simp [Text.Flat]

theorem Plain.flat (h : p.Plain) : Text.Flat p.text := by
  cases p with
  | globalAt offset => exact flat_globalAt offset
  | globalFrom base lanes offset => exact flat_globalFrom (Register.flat h) lanes offset
  | temp | literal | constant | threadId | windowPosition | named => exact Register.flat h

end Place

/-! ### Sorts of places -/

namespace PlaceSort

/-- The plain places. Operands that are handed on are registers. -/
def plain : PlaceSort where
  operand := Place.Register
  code := Place.Plain
  temp _ := trivial
  literal _ := trivial
  threadId := trivial
  code_of_operand _ := Place.Register.plain
  window := trivial
  globalAt _ := trivial
  globalFrom _ _ _ h := h

/-- The places whose names have no line break. -/
def flat : PlaceSort where
  operand p := Text.Flat p.text
  code p := Text.Flat p.text
  temp n := (show (Place.temp n).Register from trivial).flat
  literal n := (show (Place.literal n).Register from trivial).flat
  threadId := (show Place.threadId.Register from trivial).flat
  code_of_operand _ h := h
  window := (show Place.windowPosition.Register from trivial).flat
  globalAt := Place.flat_globalAt
  globalFrom _ lanes offset h := Place.flat_globalFrom h lanes offset

end PlaceSort

theorem Instruction.In.flat {i : Instruction} (h : i.In .plain) : i.In .flat :=
  ⟨h.dst.flat, h.mask, fun s hs => (h.srcs s hs).flat⟩

theorem Line.In.flat {l : Line} (h : l.In .plain) : l.In .flat := by
  cases l with
  | instruction i => exact Instruction.In.flat h
  | test t c => exact Place.Plain.flat h
  | word | comment => trivial

theorem Instruction.In.singleLine {i : Instruction} (h : i.In .flat) :
    Text.SingleLine (Line.instruction i).text :=
  Instruction.singleLine i h.dst h.srcs

theorem FlowTest.singleLine (t : FlowTest) {c : SourceOperand} (h : Text.Flat c.place.text) :
    Text.SingleLine (Line.test t c).text := by
  have hword : Text.Flat t.text := by
    unfold Text.Flat
    cases t <;> decide
  refine ⟨t.text ++ " " ++ c.text, ?_, rfl⟩
  simp only [Text.flat_append, hword, SourceOperand.flat_text h, and_true, true_and]
  simp [Text.Flat]

theorem Line.In.singleLine {l : Line} (h : l.In .flat) : Text.SingleLine l.text := by
  cases l with
  | instruction i => exact Instruction.In.singleLine h
  | test t c => exact t.singleLine h
  | word w =>
    refine ⟨w.text, ?_, rfl⟩
    unfold Text.Flat
    cases w <;> decide
  | comment s =>
    refine ⟨"; " ++ Line.flatten s, ?_, rfl⟩
    simp only [Text.flat_append, Text.flat_flatten, and_true]
    simp [Text.Flat]

/-! ### Fields of constant buffers -/

namespace BufferField

variable {f : BufferField} {o : Operand}

/-- The lanes of the field, if it names any, are lane letters. -/
def Patterned (f : BufferField) : Prop :=
  ∀ lanes, f.lanes = some lanes → ∀ c ∈ lanes.toList, c ∈ Lane.letters

theorem operand_text (h : f.operand = .ok o) :
    f.type.valid = true ∧ Operand.ofText f.placeOf f.text f.type = .ok o := by
  have hext := operand_eq h
  unfold externalOperand at hext
  split_ifs at hext with ht
  exact ⟨ht, hext⟩

/-- A field with a pattern stands at its element. -/
theorem Patterned.place_eq (hf : f.Patterned) (h : f.operand = .ok o) : o.place = f.place := by
  obtain ⟨-, htext⟩ := operand_text h
  obtain ⟨⟨name, lanes⟩, hparse, ho⟩ := except_bind_eq_ok.mp htext
  cases ho
  suffices hname : name = f.place.text by simp [placeOf, hname]
  cases hlanes : f.lanes with
  | none =>
    have helement : f.text = f.place.text := by simp [text, hlanes]
    have hdot : '.' ∉ f.place.text.toList := Place.dot_not_mem_constant f.slot f.index
    rw [helement, Operand.parseText_of_name fun before after hcut _ =>
      absurd (by rw [hcut]; simp) hdot] at hparse
    cases hparse
    rfl
  | some word =>
    obtain ⟨s, rfl⟩ := Swizzle.exists_text_iff.mpr (hf word hlanes)
    have hfield : f.text = f.place.text ++ "." ++ s.text := by
      simp [text, hlanes, String.append_assoc]
    rw [hfield, Operand.parseText_of_suffix (s.not_mem_text (by decide)) (s.not_mem_text (by decide))
      (s.not_mem_text (by decide))] at hparse
    obtain ⟨s', -, hname⟩ := except_bind_eq_ok.mp hparse
    split_ifs at hname
    cases hname
    rfl

end BufferField

/-! ### Trees -/

theorem Operand.flat_of_parseText {t : ValueType} {text name : String} {lanes : Swizzle}
    (h : parseText text t = .ok (name, lanes)) (htext : Text.Flat text) : Text.Flat name := by
  by_cases hdot : '.' ∈ text.toList
  · obtain ⟨before, after, hcut, hafter⟩ := exists_lastDot hdot
    rw [parseText, hcut, splitLastDot?_append _ hafter] at h
    simp only at h
    split_ifs at h with hbracket
    · cases h
      exact htext
    · obtain ⟨s, -, hname⟩ := except_bind_eq_ok.mp h
      split_ifs at hname
      cases hname
      -- the name is a part of the text
      intro hbreak
      rw [String.toList_ofList] at hbreak
      exact htext (by rw [hcut]; exact List.mem_append_left _ hbreak)
  · rw [parseText, splitLastDot?_of_not_mem hdot] at h
    cases h
    exact htext

namespace Expr

variable {e : Expr} {unit : UnitId} {target : Target}

/-- The tree gives no operand by its text, and the lanes of its fields are patterns. -/
structure Canonical (e : Expr) : Prop where
  external : e.ExternalFree
  fields : ∀ f, .field f ∈ e.subterms → f.Patterned

/-- No text that the tree gives has a line break: no operand, and no lanes of a field. -/
structure FlatNames (e : Expr) : Prop where
  external : ∀ t text, .external t text ∈ e.subterms → Text.Flat text
  fields : ∀ f, .field f ∈ e.subterms → ∀ lanes, f.lanes = some lanes → Text.Flat lanes

theorem Canonical.leaves (h : e.Canonical) : e.LeavesIn .plain where
  field f hf o ho := by
    obtain ⟨hslot, hindex, -⟩ := BufferField.operand_range ho
    rw [(h.fields f hf).place_eq ho]
    exact ⟨hslot, hindex⟩
  external t text ht := absurd ht (h.external t text)

theorem FlatNames.leaves (h : e.FlatNames) : e.LeavesIn .flat where
  field f hf o ho := by
    obtain ⟨-, htext⟩ := BufferField.operand_text ho
    obtain ⟨⟨name, lanes⟩, hparse, hok⟩ := except_bind_eq_ok.mp htext
    cases hok
    have helement : Text.Flat f.place.text :=
      Place.Register.flat (p := f.place)
        ⟨(BufferField.operand_range ho).1, (BufferField.operand_range ho).2.1⟩
    have hflat : Text.Flat f.text := by
      rw [BufferField.text, Text.flat_append]
      refine ⟨helement, ?_⟩
      cases hlanes : f.lanes with
      | none => simp [Text.Flat]
      | some lanes =>
        rw [Text.flat_append]
        exact ⟨by simp [Text.Flat], h.fields f hf lanes hlanes⟩
    have hname := Operand.flat_of_parseText hparse hflat
    change Text.Flat (f.placeOf name).text
    unfold BufferField.placeOf
    split_ifs
    · exact helement
    · exact hname
  external t text ht o ho := by
    unfold externalOperand at ho
    split_ifs at ho
    obtain ⟨⟨name, lanes⟩, hparse, hok⟩ := except_bind_eq_ok.mp ho
    cases hok
    exact Operand.flat_of_parseText hparse (h.external t text ht)

end Expr

/-! ### Operands handed on as text -/

theorem Assembler.eval_ok_spec {s s' : Assembler} {e : Expr} {o : Operand}
    (h : s.eval e = .ok (.ok o, s')) :
    s.phase = .building ∧ s.report = none ∧ e.errors (some s.unit) = [] ∧
      ∃ d, e.emit s.target s.draft = .ok (o, d) ∧ s' = { s with draft := d } := by
  by_cases hopen : s.phase = .building ∧ s.report = none ∧ e.errors (some s.unit) = []
  · obtain ⟨hphase, hreport, hclean⟩ := hopen
    rw [eval_of_clean hphase hreport hclean] at h
    obtain ⟨⟨o', s₁⟩, hemit, h⟩ := except_bind_eq_ok.mp h
    cases h
    exact ⟨hphase, hreport, hclean, emitting_ok_iff.mp hemit⟩
  · obtain ⟨⟨r, s₁, hrefused⟩, -⟩ := eval_of_refused rfl hopen
    rw [h] at hrefused
    cases hrefused

namespace Expr

/-- The leaf of a text from which an operand can be read. -/
theorem eval_external {s : Assembler} {t : ValueType} {text : String} {o : Operand}
    (h : externalOperand .named t text = .ok o) (hphase : s.phase = .building)
    (hreport : s.report = none) : s.eval (.external t text) = .ok (.ok o, s) := by
  have hclean : (external t text).errors (some s.unit) = [] := by simp [errors, h, errorOf]
  have hemit : (external t text).emit s.target s.draft = .ok (o, s.draft) := orFault_ok h s.draft
  rw [Assembler.eval_of_clean hphase hreport hclean, Assembler.emitting_ok hemit]
  rfl

/-- **Operand text is read back.** The text of an operand that evaluation returns for a canonical tree
makes a leaf of the same type, without errors, whose operand has the same name, lanes and lane width.
More generally an operand with the lanes of a standard type, whose name has no dot or ends in a
bracket, is read from its text. -/
theorem operand_text_round_trips :
    (∀ {s s' : Assembler} {e : Expr} {o : Operand}, e.WellTyped → e.Canonical →
      s.eval e = .ok (.ok o, s') →
        (external e.type o.text).type = e.type ∧
        (∀ unit, (external e.type o.text).errors unit = []) ∧
        ∀ s₁ : Assembler, s₁.phase = .building → s₁.report = none →
          ∃ o', s₁.eval (external e.type o.text) = .ok (.ok o', s₁) ∧
            o'.name = o.name ∧ o'.lanes = o.lanes ∧ o'.width = o.width) ∧
      ∀ t ∈ ValueType.catalog, ∀ o : Operand, o.lanes.count = t.lanes → o.width = t.laneWidth →
        Operand.Readable o.name → ∀ place : String → Place, place o.name = o.place →
          Operand.ofText place o.text t = .ok o := by
  refine ⟨fun {s s' e o} htyped hcanon heval => ?_, fun t ht o hcount hwidth hname place hplace => ?_⟩
  · obtain ⟨-, -, hclean, d, hemit, -⟩ := Assembler.eval_ok_spec heval
    have haccepted : e.Accepted s.unit := ⟨htyped, hclean⟩
    have hplain : o.place.Plain :=
      Place.Register.plain ((emit_stays hcanon.leaves hemit).operands o (List.mem_singleton_self o))
    have hread : externalOperand .named e.type o.text = .ok { o with place := .named o.name } := by
      rw [externalOperand, if_pos htyped.type_valid]
      exact Operand.ofText_text .named htyped.type_valid (haccepted.emit_fits hemit)
        hplain.readable
    refine ⟨by simp [type, hread, errorOf], fun unit => by simp [errors, hread, errorOf],
      fun s₁ hphase hreport => ?_⟩
    exact ⟨_, eval_external hread hphase hreport, rfl, rfl, rfl⟩
  · have hvalid : ∀ t ∈ ValueType.catalog, t.valid = true := by decide
    have hread := Operand.ofText_text place (hvalid t ht) ⟨hcount, hwidth⟩ hname
    rw [hread, hplace]

/-- The premises can be met: the doubles of a constant-buffer element in the other order, which reads
all four lanes of a name that ends in a bracket, and an indexed element of the global buffer, whose
name has a dot. -/
theorem round_trip_of_swapped_doubles :
    let v := field ⟨1, 4, 2, .double2, none⟩
    let s : Assembler := { phase := .building, generation := 1 }
    (∃ o s', s.eval (select v ⟨[.y, .x]⟩) = .ok (.ok o, s') ∧ o.text = "cb1[2].zwxy" ∧
      (external .double2 "cb1[2].zwxy").type = .double2 ∧
      ∃ o', s.eval (external .double2 "cb1[2].zwxy") = .ok (.ok o', s) ∧ o'.name = "cb1[2]" ∧
        o'.lanes = o.lanes) ∧
    Operand.ofText .named "g[r3.x+2]" .float4 = .ok (Operand.ofType (.named "g[r3.x+2]") .float4) := by
  intro v s
  have hoperand : (⟨1, 4, 2, .double2, none⟩ : BufferField).operand =
      .ok (Operand.ofType (.constant 1 2) .double2) := rfl
  have htyped : (select v ⟨[.y, .x]⟩).WellTyped := by
    intro x hx
    simp only [subterms, v, List.mem_cons, List.not_mem_nil, or_false] at hx
    rcases hx with rfl | rfl
    · rfl
    · rfl
  have hcanon : (select v ⟨[.y, .x]⟩).Canonical := by
    refine ⟨fun t text hx => ?_, fun f hf lanes hlanes => ?_⟩
    · simp [subterms, v] at hx
    · simp only [subterms, v, List.mem_cons, List.not_mem_nil, or_false, reduceCtorEq, false_or,
        field.injEq] at hf
      rw [hf] at hlanes
      cases hlanes
  have heval : s.eval (select v ⟨[.y, .x]⟩) = .ok (.ok ⟨.constant 1 2, ⟨[.z, .w, .x, .y]⟩, 2⟩,
      { s with draft := { buffers := ⟨[(1, 4)]⟩ } }) := rfl
  obtain ⟨htype, -, hleaf⟩ := operand_text_round_trips.1 htyped hcanon heval
  obtain ⟨o', ho', hname, hlanes, -⟩ := hleaf s rfl rfl
  refine ⟨⟨_, _, heval, rfl, htype, o', ho', hname, hlanes⟩, ?_⟩
  exact operand_text_round_trips.2 .float4 (by decide) (Operand.ofType (.named "g[r3.x+2]") .float4)
    rfl rfl (.inr rfl) .named rfl

end Expr

end ShaderIL
