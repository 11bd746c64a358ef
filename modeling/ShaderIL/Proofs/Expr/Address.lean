import ShaderIL.Proofs.Expr.Names

/-!
# Addresses

A chain of additions and subtractions moves an address. Offsets are words, so what a chain accumulates
is the residue of its sum, whatever its parts are (`Address.toInt_offset_shiftAll`). The offset is no
operand: an element is read or written behind the code of the base, in one line whose index is the text
of the base and the offset. `indexText` is that text, a sign and digits or nothing, and `readIndex`
finds the base and the offset in it again. The least offset is the exception: its negation is itself, so
it is written with two signs (`offsetText_eq`).
-/

namespace ShaderIL

/-! ### Chains -/

/-- A move of an address. -/
inductive Shift where
  | add (n : Int64)
  | sub (n : Int64)

/-- The distance of a move. -/
def Shift.amount : Shift → Int
  | add n => n.toInt
  | sub n => -n.toInt

/-- The offset after a chain of moves from an offset: the residue of the sum that a word holds. -/
def Shift.accumulated (start : Int) (steps : List Shift) : Int :=
  (start + (steps.map amount).foldr (· + ·) 0).bmod (2 ^ 64)

namespace Address

/-- The address after a move. -/
def shift (a : Address) : Shift → Address
  | .add n => a.add n
  | .sub n => a.sub n

/-- The address after a chain of moves. -/
def shiftAll (a : Address) (steps : List Shift) : Address := steps.foldl shift a

variable {a : Address}

theorem toInt_offset_shift (a : Address) (st : Shift) :
    (a.shift st).offset.toInt = (a.offset.toInt + st.amount).bmod (2 ^ 64) := by
  cases st with
  | add n => exact Int64.toInt_add a.offset n
  | sub n => exact (Int64.toInt_sub a.offset n).trans (by rw [Shift.amount, Int.sub_eq_add_neg])

theorem base_shiftAll (a : Address) (steps : List Shift) : (a.shiftAll steps).base = a.base := by
  unfold shiftAll
  induction steps generalizing a with
  | nil => rfl
  | cons st steps ih =>
    rw [List.foldl_cons, ih]
    cases st with
    | add n => rfl
    | sub n => rfl

/-- **A chain accumulates the residue of its sum.** -/
theorem toInt_offset_shiftAll (a : Address) (steps : List Shift) :
    (a.shiftAll steps).offset.toInt = Shift.accumulated a.offset.toInt steps := by
  unfold shiftAll Shift.accumulated
  induction steps generalizing a with
  | nil =>
    have hword := Int64.toInt_bmod a.offset
    simp [hword]
  | cons st steps ih =>
    rw [List.foldl_cons, ih, toInt_offset_shift, Int.bmod_add_bmod, List.map_cons, List.foldr_cons,
      Int.add_assoc]

end Address

/-! ### The text of an offset -/

/-- An offset behind a base: a sign and digits, nothing for zero. -/
def signedText (n : Int) : String :=
  if 0 < n then "+" ++ toString n.toNat else if n < 0 then "-" ++ toString (-n).toNat else ""

/-- The least offset is written with two signs, any other with one. -/
theorem offsetText_eq (offset : Int64) : offsetText offset =
    if offset.toInt = -2 ^ 63 then "--9223372036854775808" else signedText offset.toInt := by
  have hlow := Int64.le_toInt offset
  have hhigh := Int64.toInt_lt offset
  have hpos : 0 < offset ↔ 0 < offset.toInt := Int64.lt_iff_toInt_lt
  have hneg : offset < 0 ↔ offset.toInt < 0 := Int64.lt_iff_toInt_lt
  unfold offsetText signedText
  rw [Int64.toInt_neg]
  simp only [hpos, hneg]
  generalize offset.toInt = n at hlow hhigh
  by_cases hleast : n = -2 ^ 63
  · rw [if_pos hleast, hleast]
    rfl
  · rw [if_neg hleast]
    by_cases hp : 0 < n
    · rw [if_pos hp, if_pos hp, Text.toString_int_eq, if_pos (by omega)]
    · rw [if_neg hp, if_neg hp]
      by_cases hn : n < 0
      · have hres : (-n).bmod (2 ^ 64) = -n := Int.bmod_eq_of_le (by omega) (by omega)
        rw [if_pos hn, if_pos hn, hres, Text.toString_int_eq, if_pos (by omega)]
      · rw [if_neg hn, if_neg hn]

/-- The text of an index: a base and an offset. -/
def indexText (base : String) (n : Int) : String :=
  base ++ if n = -2 ^ 63 then "--9223372036854775808" else signedText n

/-- Read the text of an index: the digits at its end are the offset if a sign stands before them. -/
def readIndex (s : String) : String × Int :=
  let digits := (s.toList.reverse.takeWhile Char.isDigit).reverse
  let front := s.toList.reverse.dropWhile Char.isDigit
  if front.head? = some '+' then (String.ofList front.tail.reverse, Nat.ofDigitChars 10 digits 0)
  else if front.head? = some '-' then
    (String.ofList front.tail.reverse, -(Nat.ofDigitChars 10 digits 0 : Int))
  else (s, 0)

theorem cut_digits (base : String) (sign : Char) (hsign : sign.isDigit = false) (n : Nat) :
    let cs := (base.toList ++ sign :: Nat.toDigits 10 n).reverse
    (cs.takeWhile Char.isDigit).reverse = Nat.toDigits 10 n ∧
      cs.dropWhile Char.isDigit = sign :: base.toList.reverse := by
  intro cs
  have hcs : cs = (Nat.toDigits 10 n).reverse ++ sign :: base.toList.reverse := by simp [cs]
  have hall : ∀ c ∈ (Nat.toDigits 10 n).reverse, c.isDigit = true := by
    intro c hc
    rw [List.mem_reverse] at hc
    exact Nat.isDigit_of_mem_toDigits (by decide) (by decide) hc
  rw [hcs, List.takeWhile_append_of_pos hall, List.dropWhile_append_of_pos hall]
  simp [hsign]

/-- **An index is read back** behind a base that ends in a lane letter. -/
theorem readIndex_indexText {base : String} {l : Lane} (hbase : base.toList.getLast? = some l.letter)
    {n : Int} (hn : n ≠ -2 ^ 63) : readIndex (indexText base n) = (base, n) := by
  have hplain : ∀ l : Lane, l.letter.isDigit = false ∧ l.letter ≠ '+' ∧ l.letter ≠ '-' := by decide
  obtain ⟨hdigit, hplus, hminus⟩ := hplain l
  unfold indexText signedText
  rw [if_neg hn]
  by_cases hp : 0 < n
  · have htext : (base ++ ("+" ++ toString n.toNat)).toList =
        base.toList ++ '+' :: Nat.toDigits 10 n.toNat := by
      simp [Nat.toString_eq_repr, Nat.toList_repr]
    obtain ⟨hdigits, hfront⟩ := cut_digits base '+' (by decide) n.toNat
    rw [if_pos hp, readIndex]
    simp only [htext, hdigits, hfront]
    have hvalue : ((n.toNat : Nat) : Int) = n := by omega
    simp [Nat.ofDigitChars_ten_toDigits, hvalue]
  · rw [if_neg hp]
    by_cases hm : n < 0
    · have htext : (base ++ ("-" ++ toString (-n).toNat)).toList =
          base.toList ++ '-' :: Nat.toDigits 10 (-n).toNat := by
        simp [Nat.toString_eq_repr, Nat.toList_repr]
      obtain ⟨hdigits, hfront⟩ := cut_digits base '-' (by decide) (-n).toNat
      rw [if_pos hm, readIndex]
      simp only [htext, hdigits, hfront]
      have hvalue : -(((-n).toNat : Nat) : Int) = n := by omega
      rw [Nat.ofDigitChars_ten_toDigits, hvalue]
      simp
    · have hzero : n = 0 := by omega
      have hhead : base.toList.reverse.head? = some l.letter := by rw [List.head?_reverse, hbase]
      have hfront : base.toList.reverse.dropWhile Char.isDigit = base.toList.reverse := by
        cases hrev : base.toList.reverse with
        | nil => rfl
        | cons x xs =>
          rw [hrev, List.head?_cons, Option.some.injEq] at hhead
          rw [hhead]
          exact List.dropWhile_cons_of_neg (by simp [hdigit])
      rw [if_neg hm, readIndex, String.append_empty]
      simp only [hfront, hhead, Option.some.injEq, hplus, hminus, if_false]
      rw [hzero]

/-! ### Elements of the global buffer -/

namespace Expr

variable {target : Target} {e v : Expr} {d d₁ d' : Draft} {o value : Operand} {t : ValueType}

/-- The type of a base of an address. -/
def Scalar (t : ValueType) : Prop := t = .int1 ∨ t = .uint1 ∨ t = .float1

/-- The text of a scalar operand ends in a lane letter. -/
theorem getLast?_text_of_scalar (ht : Scalar t) (ho : o.Fits t) :
    ∃ l : Lane, o.text.toList.getLast? = some l.letter := by
  have hone : o.lanes.count = 1 := by
    rw [ho.count]
    rcases ht with rfl | rfl | rfl
    · rfl
    · rfl
    · rfl
  obtain ⟨l, hl⟩ := List.length_eq_one_iff.mp hone
  have hne : o.lanes ≠ Swizzle.identity 4 := by
    intro h
    rw [h] at hone
    exact absurd hone (by decide)
  refine ⟨l, ?_⟩
  have htext : o.text = o.name ++ "." ++ o.lanes.text := by simp [Operand.text, laneText, hne]
  rw [htext, String.toList_append, Swizzle.toList_text, hl]
  simp

theorem emit_element {b : Expr} {offset : Int64}
    (hbase : b.emit target { d with usesGlobal := true } = .ok (o, d')) :
    (element t b offset).emit target d = emitFresh .mov t (elementOperand t o offset) d' := by
  change (b.emit target >>= fun a => emitFresh .mov t (elementOperand t a offset))
    { d with usesGlobal := true } = _
  exact Emit.bind_of_ok hbase

theorem store_element {b : Expr} {offset : Int64} (hvalue : v.emit target d = .ok (value, d₁))
    (hbase : b.emit target { d₁ with usesGlobal := true } = .ok (o, d')) :
    (LValue.element t ⟨some b, offset⟩).store target v d =
      emitMove (elementOperand t o offset) value d' := by
  rw [LValue.store, Emit.bind_of_ok hvalue]
  change (b.emit target >>= fun base => emitMove (elementOperand t base offset) value)
    { d₁ with usesGlobal := true } = _
  exact Emit.bind_of_ok hbase

theorem next_of_emitMove {dst : Operand} (h : emitMove dst value d = .ok ((), d')) :
    d'.next = d.next := by
  unfold emitMove at h
  split_ifs at h
  · obtain ⟨moved, -, hwrite⟩ := Emit.bind_lift_ok_iff.mp h
    cases hwrite
    rfl
  · cases h
    rfl

theorem name_elementOperand (t : ValueType) (base : Operand) (offset : Int64) :
    (elementOperand t base offset).name = "g[" ++ indexText base.text offset.toInt ++ "]" := by
  change "g[" ++ base.text ++ offsetText offset ++ "]" = _
  rw [offsetText_eq, indexText]
  simp only [String.append_assoc]

/-- **Offsets of addresses are folded into the index.** Let a scalar base, for whose code alone
registers are taken, be moved by any chain of additions and subtractions, and let `n` be what the chain
accumulates. An element at that address is read by one line behind the code of the base, which takes
one register for the value read, and is written by one line that takes none. Its index is the text of
the base operand, followed by nothing for zero, else by a sign and the digits of `n`; from it the base
and `n` are read back. Only for the least `n` there are two signs. An address without a base prints what
is accumulated from its own offset, and is used in one line too. -/
theorem address_offsets_folded (target : Target) (he : Scalar e.type) (steps : List Shift)
    (t : ValueType) :
    let a := (Address.ofExpr e).shiftAll steps
    let n := Shift.accumulated 0 steps
    (∀ unit d, e.Accepted unit → ∃ o d', e.emit target d = .ok (o, d')) ∧
    (∀ d o d', e.emit target { d with usesGlobal := true } = .ok (o, d') →
      ∃ source : Operand, source.name = "g[" ++ indexText o.text n ++ "]" ∧
        (a.element t).emit target d = .ok (Operand.ofType (.temp d'.next) t,
          (d'.taken 1).appended [freshLine .mov t source d'.next])) ∧
    (∀ v d value d₁ o d', v.emit target d = .ok (value, d₁) →
      e.emit target { d₁ with usesGlobal := true } = .ok (o, d') →
        ∃ dst : Operand, dst.name = "g[" ++ indexText o.text n ++ "]" ∧
          (LValue.element t a).store target v d = emitMove dst value d' ∧
          ∀ d'', (LValue.element t a).store target v d = .ok ((), d'') → d''.next = d'.next) ∧
    (∀ d o d', e.emit target d = .ok (o, d') → n ≠ -2 ^ 63 →
      indexText o.text n = o.text ++ signedText n ∧ readIndex (indexText o.text n) = (o.text, n)) ∧
    ∀ m : Int64, ∃ address : Operand,
      address.name = "g[" ++ toString (Shift.accumulated m.toInt steps) ++ "]" ∧
      (∀ d, (((Address.fixed m).shiftAll steps).element t).emit target d =
        emitFresh .mov t address { d with usesGlobal := true }) ∧
      ∀ v d value d₁, v.emit target d = .ok (value, d₁) →
        (LValue.element t ((Address.fixed m).shiftAll steps)).store target v d =
          emitMove address value { d₁ with usesGlobal := true } := by
  intro a n
  have hvalid : e.type.valid = true := by
    rcases he with h | h | h
    · rw [h]; rfl
    · rw [h]; rfl
    · rw [h]; rfl
  have ha : a = ⟨some e, a.offset⟩ := by
    have hbase : a.base = some e := Address.base_shiftAll _ steps
    rw [← hbase]
  have hn : a.offset.toInt = n := Address.toInt_offset_shiftAll _ steps
  have hname : ∀ o : Operand, (elementOperand t o a.offset).name =
      "g[" ++ indexText o.text n ++ "]" := by
    intro o
    rw [name_elementOperand, hn]
  refine ⟨fun unit d haccepted => ?_, fun d o d' hbase => ?_, fun v d value d₁ o d' hvalue hbase => ?_,
    fun d o d' hbase hleast => ?_, fun m => ?_⟩
  · obtain ⟨o, d', hemit, -⟩ := haccepted.emit_ok target d
    exact ⟨o, d', hemit⟩
  · refine ⟨_, hname o, ?_⟩
    have helement : a.element t = element t e a.offset := by rw [ha]; rfl
    rw [helement, emit_element hbase, emitFresh_eq]
  · have hstore : (LValue.element t a).store target v d =
        emitMove (elementOperand t o a.offset) value d' := by
      rw [ha]
      exact store_element hvalue hbase
    refine ⟨_, hname o, hstore, fun d'' h => ?_⟩
    rw [hstore] at h
    exact next_of_emitMove h
  · obtain ⟨l, hlast⟩ := getLast?_text_of_scalar he (emit_fits_of_valid hvalid hbase)
    refine ⟨?_, readIndex_indexText hlast hleast⟩
    rw [indexText, if_neg hleast]
  · have hfixed : (Address.fixed m).shiftAll steps =
        ⟨none, ((Address.fixed m).shiftAll steps).offset⟩ := by
      have hbase : ((Address.fixed m).shiftAll steps).base = none := Address.base_shiftAll _ steps
      rw [← hbase]
    have hoffset := Address.toInt_offset_shiftAll (Address.fixed m) steps
    generalize (Address.fixed m).shiftAll steps = b at hfixed hoffset
    refine ⟨elementAtOperand t b.offset, ?_, fun d => ?_, fun v d value d₁ hvalue => ?_⟩
    · change "g[" ++ toString b.offset.toInt ++ "]" = _
      rw [hoffset]
      rfl
    · rw [hfixed]
      rfl
    · rw [hfixed, LValue.store, Emit.bind_of_ok hvalue]
      rfl

/-- The premises can be met: a chain that passes the least offset ends at the largest. -/
theorem address_of_wrapped_chain :
    let e := var ⟨.int1, some ⟨⟨0, 1⟩, 0⟩⟩
    let steps : List Shift := [.sub 9223372036854775807, .sub 2]
    let o := Operand.ofType (.temp 0) .int1
    Shift.accumulated 0 steps = 9223372036854775807 ∧ o.text = "r0.x" ∧
      readIndex (indexText "r0.x" 9223372036854775807) = ("r0.x", 9223372036854775807) ∧
      ∃ source : Operand, source.name = "g[r0.x+9223372036854775807]" ∧
        (((Address.ofExpr e).shiftAll steps).element .float4).emit .pixel {} =
          .ok (Operand.ofType (.temp 0) .float4,
            (({ usesGlobal := true } : Draft).taken 1).appended [freshLine .mov .float4 source 0]) := by
  intro e steps o
  have hn : Shift.accumulated 0 steps = 9223372036854775807 := by decide
  have hemit : ∀ d, e.emit .pixel d = .ok (o, d) := fun _ => rfl
  obtain ⟨-, hread, -, hback, -⟩ :=
    address_offsets_folded .pixel (e := e) (.inl rfl) steps .float4
  obtain ⟨source, hname, hsource⟩ := hread {} o _ (hemit _)
  obtain ⟨-, hindex⟩ := hback {} o _ (hemit _) (by rw [hn]; decide)
  rw [hn] at hname hindex
  exact ⟨hn, rfl, hindex, source, hname, hsource⟩

/-- The least offset is written behind its base with two signs. -/
theorem least_offset_has_two_signs :
    let e := var ⟨.int1, some ⟨⟨0, 1⟩, 0⟩⟩
    let a := ((Address.ofExpr e).sub 9223372036854775807).sub 1
    a.offset.toInt = -9223372036854775808 ∧ ∃ source : Operand,
      source.name = "g[r0.x--9223372036854775808]" ∧
      (a.element .float4).emit .pixel {} = emitFresh .mov .float4 source { usesGlobal := true } := by
  intro e a
  have hoffset : a.offset.toInt = -9223372036854775808 := by decide
  refine ⟨hoffset, elementOperand .float4 (Operand.ofType (.temp 0) .int1) a.offset, ?_, rfl⟩
  rw [name_elementOperand, hoffset]
  rfl

end Expr

end ShaderIL
