import Mathlib.Data.List.TakeWhile
import ShaderIL.Proofs.Lane.Select
import ShaderIL.Proofs.Text.Lines

/-!
# Operands as text

A pattern is a word of lane letters; reading the word gives the pattern back and nothing else reads
(`Swizzle.parse_eq_ok_iff`). The text of an operand is its name and, behind a dot, the letters of its
lanes, which are left out if they are the four lanes in order. Reading cuts at the last dot, and the
cut finds the lanes again if the name is `Readable`: it has no dot of its own, or it ends in a
bracket, so that what stands behind a dot of it cannot be taken for lanes
(`Operand.parseText_text`). An instruction whose names have no line break is one line of text
(`Instruction.singleLine`).
-/

namespace ShaderIL

/-! ### Patterns -/

namespace Lane

theorem ofByte?_eq_some_iff {b : UInt8} {l : Lane} : ofByte? b = some l ↔ b.toNat = l.letter.toNat := by
  constructor
  · intro h
    have hb := List.find?_some h
    exact (beq_iff_eq.mp hb).symm
  · intro h
    simp only [ofByte?, h]
    clear h
    revert l
    decide

theorem utf8EncodeChar_letter (l : Lane) :
    String.utf8EncodeChar l.letter = [UInt8.ofNat l.letter.toNat] := by
  revert l
  decide

theorem toNat_byte_letter (l : Lane) : (UInt8.ofNat l.letter.toNat).toNat = l.letter.toNat := by
  revert l
  decide

theorem letter_mem_letters (l : Lane) : l.letter ∈ letters := by
  revert l
  decide

theorem exists_of_mem_letters {c : Char} (h : c ∈ letters) : ∃ l : Lane, l.letter = c := by
  revert h
  simp only [letters, List.mem_cons, List.not_mem_nil, or_false]
  rintro (rfl | rfl | rfl | rfl)
  · exact ⟨.x, rfl⟩
  · exact ⟨.y, rfl⟩
  · exact ⟨.z, rfl⟩
  · exact ⟨.w, rfl⟩

end Lane

namespace Swizzle

variable {s : Swizzle} {p : String}

theorem toList_text (s : Swizzle) : s.text.toList = s.lanes.map Lane.letter := by
  simp [text]

theorem bytes_text_cons (l : Lane) (ls : List Lane) : Text.bytes (text ⟨l :: ls⟩) =
    UInt8.ofNat l.letter.toNat :: Text.bytes (text ⟨ls⟩) := by
  simp [Text.bytes, toList_text, Lane.utf8EncodeChar_letter]

theorem length_bytes_text (s : Swizzle) : (Text.bytes s.text).length = s.count := by
  obtain ⟨ls⟩ := s
  induction ls with
  | nil => rfl
  | cons l ls ih =>
    rw [bytes_text_cons, List.length_cons, ih]
    rfl

/-- The bytes that are read are those of the letters. -/
theorem lanesOfBytes_eq_ok_iff {bs : List UInt8} {ls : List Lane} :
    lanesOfBytes bs = .ok ls ↔ bs = Text.bytes (text ⟨ls⟩) := by
  induction bs generalizing ls with
  | nil =>
    cases ls with
    | nil => exact iff_of_true rfl rfl
    | cons l ls => simp [lanesOfBytes, bytes_text_cons]
  | cons b bs ih =>
    rw [lanesOfBytes]
    cases hb : Lane.ofByte? b with
    | none =>
      refine iff_of_false (by simp) fun h => ?_
      cases ls with
      | nil => simp [Text.bytes, toList_text] at h
      | cons l ls =>
        rw [bytes_text_cons, List.cons.injEq] at h
        have hl : Lane.ofByte? b = some l :=
          Lane.ofByte?_eq_some_iff.mpr (by rw [h.1, Lane.toNat_byte_letter])
        rw [hb] at hl
        cases hl
    | some l =>
      have hletter := Lane.ofByte?_eq_some_iff.mp hb
      have hbyte : b = UInt8.ofNat l.letter.toNat :=
        UInt8.toNat_inj.mp (by rw [hletter, Lane.toNat_byte_letter])
      have hmap : ∀ ms, (lanesOfBytes bs).map (l :: ·) = .ok ms ↔
          ∃ ks, lanesOfBytes bs = .ok ks ∧ ms = l :: ks := by
        intro ms
        cases lanesOfBytes bs <;> simp [Except.map, eq_comm]
      rw [hmap]
      constructor
      · rintro ⟨ks, hks, rfl⟩
        rw [bytes_text_cons, ← hbyte, ← ih.mp hks]
      · intro h
        cases ls with
        | nil => simp [Text.bytes, toList_text] at h
        | cons l' ks =>
          rw [bytes_text_cons, List.cons.injEq] at h
          have hl : Lane.ofByte? b = some l' :=
            Lane.ofByte?_eq_some_iff.mpr (by rw [h.1, Lane.toNat_byte_letter])
          rw [hb] at hl
          cases hl
          exact ⟨ks, ih.mpr h.2, rfl⟩

/-- **A pattern is read from its letters and from nothing else.** -/
theorem parse_eq_ok_iff : parse p = .ok s ↔ p = s.text ∧ 0 < s.count ∧ s.count ≤ 4 := by
  have hread : ∀ ls : List Lane, lanesOfBytes (Text.bytes p) = .ok ls ↔ p = text ⟨ls⟩ :=
    fun ls => lanesOfBytes_eq_ok_iff.trans ⟨Text.bytes_injective, fun h => by rw [h]⟩
  constructor
  · intro h
    simp only [parse] at h
    split_ifs at h with hlen
    split at h
    · cases h
    · rename_i ls hls
      cases h
      obtain rfl := (hread ls).mp hls
      simp only [Bool.or_eq_true, List.isEmpty_iff, decide_eq_true_eq, not_or, Nat.not_lt,
        ← List.length_eq_zero_iff, length_bytes_text] at hlen
      exact ⟨rfl, by omega, hlen.2⟩
  · rintro ⟨rfl, hpos, hle⟩
    have hlen : ¬ ((Text.bytes s.text).isEmpty || decide (4 < (Text.bytes s.text).length)) = true := by
      simp only [Bool.or_eq_true, List.isEmpty_iff, decide_eq_true_eq, not_or, Nat.not_lt,
        ← List.length_eq_zero_iff, length_bytes_text]
      exact ⟨by omega, hle⟩
    simp only [parse, if_neg hlen, (hread s.lanes).mpr rfl]

/-- The words over the lane letters are the texts of patterns. -/
theorem exists_text_iff : (∃ s : Swizzle, s.text = p) ↔ ∀ c ∈ p.toList, c ∈ Lane.letters := by
  constructor
  · rintro ⟨s, rfl⟩ c hc
    rw [toList_text] at hc
    obtain ⟨l, -, rfl⟩ := List.mem_map.mp hc
    exact l.letter_mem_letters
  · intro h
    have hlanes : ∀ cs : List Char, (∀ c ∈ cs, c ∈ Lane.letters) →
        ∃ ls : List Lane, ls.map Lane.letter = cs := by
      intro cs
      induction cs with
      | nil => exact fun _ => ⟨[], rfl⟩
      | cons c cs ih =>
        intro hcs
        obtain ⟨l, hl⟩ := Lane.exists_of_mem_letters (hcs c List.mem_cons_self)
        obtain ⟨ls, hls⟩ := ih fun a ha => hcs a (List.mem_cons_of_mem _ ha)
        exact ⟨l :: ls, by rw [List.map_cons, hl, hls]⟩
    obtain ⟨ls, hls⟩ := hlanes p.toList h
    exact ⟨⟨ls⟩, by rw [← String.toList_inj, toList_text, hls]⟩

theorem count_eq_length_text (s : Swizzle) : s.count = s.text.toList.length := by
  rw [toList_text, List.length_map]
  rfl

theorem not_mem_text {c : Char} (hc : c ∉ Lane.letters) (s : Swizzle) : c ∉ s.text.toList := fun h =>
  hc (exists_text_iff.mp ⟨s, rfl⟩ c h)

end Swizzle

/-! ### The cut at the last dot -/

namespace Operand

variable {t : ValueType} {text name suffix : String} {before after : List Char}

theorem splitLastDot?_of_not_mem {cs : List Char} (h : '.' ∉ cs) : splitLastDot? cs = none := by
  have hall : ∀ c ∈ cs.reverse, (c != '.') = true := by
    intro c hc
    rw [List.mem_reverse] at hc
    exact bne_iff_ne.mpr fun hdot => h (hdot ▸ hc)
  rw [splitLastDot?, List.span_eq_takeWhile_dropWhile, List.dropWhile_eq_nil_iff.mpr hall]

theorem splitLastDot?_append (before : List Char) (h : '.' ∉ after) :
    splitLastDot? (before ++ '.' :: after) = some (before, after) := by
  have hall : ∀ c ∈ after.reverse, (c != '.') = true := by
    intro c hc
    rw [List.mem_reverse] at hc
    exact bne_iff_ne.mpr fun hdot => h (hdot ▸ hc)
  have hreverse : (before ++ '.' :: after).reverse = after.reverse ++ '.' :: before.reverse := by simp
  rw [splitLastDot?, hreverse, List.span_eq_takeWhile_dropWhile,
    List.takeWhile_append_of_pos hall, List.dropWhile_append_of_pos hall]
  simp

theorem exists_lastDot {cs : List Char} (h : '.' ∈ cs) :
    ∃ before after, cs = before ++ '.' :: after ∧ '.' ∉ after := by
  obtain ⟨xs, ys, hcs, hxs⟩ := List.eq_append_cons_of_mem (List.mem_reverse.mpr h)
  refine ⟨ys.reverse, xs.reverse, ?_, by simpa using hxs⟩
  rw [← List.reverse_reverse cs, hcs]
  simp

/-- The text ends in a bracketed index or has no dot, so it is a name as it stands. -/
theorem parseText_of_name (h : ∀ before after, text.toList = before ++ '.' :: after → '.' ∉ after →
    '[' ∈ after ∨ ']' ∈ after) : parseText text t = .ok (text, Swizzle.identity t.lanes) := by
  rw [parseText]
  by_cases hdot : '.' ∈ text.toList
  · obtain ⟨before, after, hcut, hafter⟩ := exists_lastDot hdot
    have hany : (after.any fun c => c == '[' || c == ']') = true := by
      rw [List.any_eq_true]
      rcases h before after hcut hafter with hc | hc
      · exact ⟨_, hc, rfl⟩
      · exact ⟨_, hc, rfl⟩
    rw [hcut, splitLastDot?_append _ hafter]
    simp only [hany, if_true]
  · rw [splitLastDot?_of_not_mem hdot]

/-- What stands behind the last dot is read as lanes unless it has a bracket. -/
theorem parseText_of_suffix (hdot : '.' ∉ suffix.toList) (hopen : '[' ∉ suffix.toList)
    (hclose : ']' ∉ suffix.toList) : parseText (name ++ "." ++ suffix) t =
      (Swizzle.parse suffix >>= fun s => if s.count = t.lanes then .ok (name, s)
        else .error (.operandLanes (name ++ "." ++ suffix) s.count t)) := by
  have hcut : (name ++ "." ++ suffix).toList = name.toList ++ '.' :: suffix.toList := by simp
  have hany : (suffix.toList.any fun c => c == '[' || c == ']') = false := by
    rw [List.any_eq_false]
    intro c hc
    simp only [Bool.or_eq_true, beq_iff_eq, not_or]
    exact ⟨fun h => hopen (h ▸ hc), fun h => hclose (h ▸ hc)⟩
  rw [parseText, hcut, splitLastDot?_append _ hdot]
  simp only [hany, Bool.false_eq_true, if_false, String.ofList_toList, beq_iff_eq]

/-- The letters behind the last dot are read as lanes if they are as many as the type has. -/
theorem parseText_of_lanes (s : Swizzle) (ht : t.valid = true) (hcount : s.count = t.lanes) :
    parseText (name ++ "." ++ s.text) t = .ok (name, s) := by
  have hpos := ValueType.lanes_pos ht
  have hle := ValueType.lanes_le_four ht
  have hparse : Swizzle.parse s.text = .ok s :=
    Swizzle.parse_eq_ok_iff.mpr ⟨rfl, by omega, by omega⟩
  rw [parseText_of_suffix (s.not_mem_text (by decide)) (s.not_mem_text (by decide))
    (s.not_mem_text (by decide)), hparse]
  exact if_pos hcount

/-! ### Reading an operand back -/

/-- The name shows where it ends: it has no dot, or a bracket stands at its end. -/
def Readable (name : String) : Prop := '.' ∉ name.toList ∨ name.toList.getLast? = some ']'

/-- **The text of an operand is read as its name and its lanes.** -/
theorem parseText_text {o : Operand} (ht : t.valid = true) (hcount : o.lanes.count = t.lanes)
    (hname : Readable o.name) : parseText o.text t = .ok (o.name, o.lanes) := by
  by_cases hid : o.lanes = Swizzle.identity 4
  · have hfour : t.lanes = 4 := by rw [← hcount, hid]; rfl
    have htext : o.text = o.name := by simp [Operand.text, laneText, hid]
    rw [htext, hid, parseText_of_name, hfour]
    intro before after hcut hafter
    rcases hname with hdot | hlast
    · exact absurd (by simp [hcut]) hdot
    · -- the bracket at the end stands behind every dot of the name
      rw [hcut, List.getLast?_append, List.getLast?_cons] at hlast
      cases after using List.reverseRecOn with
      | nil => simp at hlast
      | append_singleton cs c =>
        simp only [List.getLast?_append, List.getLast?_singleton, Option.some_or, Option.getD_some,
          Option.some.injEq] at hlast
        exact .inr (by simp [hlast])
  · have htext : o.text = o.name ++ "." ++ o.lanes.text := by simp [Operand.text, laneText, hid]
    rw [htext, parseText_of_lanes _ ht hcount]

/-- An operand is read back whole, at the place its name stands for. -/
theorem ofText_text {o : Operand} (place : String → Place) (ht : t.valid = true) (ho : o.Fits t)
    (hname : Readable o.name) : ofText place o.text t = .ok { o with place := place o.name } := by
  rw [ofText, parseText_text ht ho.count hname]
  change Except.ok (⟨place o.name, o.lanes, t.laneWidth⟩ : Operand) = _
  rw [← ho.width]

end Operand

/-! ### Instructions as lines -/

theorem Text.flat_laneText {name : String} (h : Flat name) (s : Swizzle) :
    Flat (laneText name s) := by
  have hletters : Flat s.text := s.not_mem_text (by decide)
  unfold laneText
  split_ifs
  · exact h
  · simp only [flat_append, h, hletters, and_true, true_and]
    simp [Flat]

theorem Mnemonic.flat_text (m : Mnemonic) : Text.Flat m.text := by
  cases m with
  | sample slot =>
    change Text.Flat ("sample_resource(" ++ toString slot ++ ")_sampler(" ++ toString slot ++ ")")
    simp only [Text.flat_append, Text.flat_toString_int, and_true]
    simp [Text.Flat]
  | _ =>
    unfold Text.Flat
    decide

theorem SourceOperand.flat_text {s : SourceOperand} (h : Text.Flat s.place.text) :
    Text.Flat s.text := by
  rw [text, Text.flat_append]
  refine ⟨Text.flat_laneText h s.lanes, ?_⟩
  cases s.sign with
  | plain | negated => simp [Sign.text, Text.Flat]
  | highNegated =>
    unfold Sign.text
    split_ifs
    · simp [Text.Flat]
    · simp [Text.Flat]

theorem Destination.flat_text {d : Destination} (h : Text.Flat d.place.text) : Text.Flat d.text := by
  have hmask : Text.Flat d.mask.text := by
    intro hbreak
    rw [WriteMask.text, String.toList_ofList] at hbreak
    obtain ⟨l, -, hl⟩ := List.mem_map.mp hbreak
    have hletter : ∀ l : Lane, l.letter ≠ '\n' := by decide
    split_ifs at hl
    · exact hletter l hl
    · cases hl
  unfold text
  split_ifs
  · exact h
  · simp only [Text.flat_append, h, hmask, and_true, true_and]
    simp [Text.Flat]

theorem Instruction.singleLine (i : Instruction) (hdst : Text.Flat i.dst.place.text)
    (hsrcs : ∀ s ∈ i.srcs, Text.Flat s.place.text) : Text.SingleLine (Line.instruction i).text := by
  refine ⟨i.text, ?_, rfl⟩
  rw [text, Text.flat_append, Text.flat_append]
  refine ⟨⟨i.mnemonic.flat_text, by simp [Text.Flat]⟩, ?_⟩
  refine Text.flat_intercalate (by simp [Text.Flat]) fun l hl => ?_
  rcases List.mem_cons.mp hl with rfl | hl
  · exact Destination.flat_text hdst
  · obtain ⟨s, hs, rfl⟩ := List.mem_map.mp hl
    exact SourceOperand.flat_text (hsrcs s hs)

end ShaderIL
