import ShaderIL.Proofs.Expr.Names

/-!
# Code is read back from its text

A line of code is cut at its first blank into a keyword and operands, the operands at their commas, and
an operand at the sign modifier and at the dot in front of its lanes; what is left is the name of a
place. `Line.read?` does this, and `Line.readAll?` does it for every line of a program up to the line
that ends it. Lines on plain places come back as they were written (`readAll?_text`), except that a
comment comes back on one line. So what is said of such lines is said of the text of the code.
-/

namespace ShaderIL

theorem mapM_map_of_forall {α β γ : Type} {f : α → β} {read : β → Option γ} {g : α → γ} {l : List α}
    (h : ∀ a ∈ l, read (f a) = some (g a)) : (l.map f).mapM read = some (l.map g) := by
  induction l with
  | nil => rfl
  | cons a l ih =>
    obtain ⟨ha, hl⟩ := List.forall_mem_cons.mp h
    rw [List.map_cons, List.mapM_cons, ha, ih hl]
    rfl

/-! ### Delimiters and numbers -/

namespace Text

variable {c : Char} {cs before : List Char} {marks marks' : List Char} {s : String}

/-- The characters before and after the first `c`. -/
def cut? (c : Char) (cs : List Char) : Option (List Char × List Char) :=
  if c ∈ cs then some (cs.takeWhile (· != c), (cs.dropWhile (· != c)).tail) else none

theorem cut?_append (h : c ∉ before) (after : List Char) :
    cut? c (before ++ c :: after) = some (before, after) := by
  have hall : ∀ a ∈ before, (a != c) = true := fun a ha => bne_iff_ne.mpr fun hac => h (hac ▸ ha)
  rw [cut?, if_pos (by simp), List.takeWhile_append_of_pos hall, List.dropWhile_append_of_pos hall]
  simp

theorem cut?_of_not_mem (h : c ∉ cs) : cut? c cs = none := if_neg h

/-- The number that decimal digits stand for. -/
def nat? (cs : List Char) : Option Nat :=
  if cs.isEmpty || !cs.all Char.isDigit then none else some (Nat.ofDigitChars 10 cs 0)

/-- The same with a sign in front of a negative number. -/
def int? (cs : List Char) : Option Int :=
  if cs.head? = some '-' then (nat? cs.tail).map fun n => -Int.ofNat n else (nat? cs).map Int.ofNat

theorem nat?_toString (n : Nat) : nat? (toString n).toList = some n := by
  have hdigits : (toString n).toList = Nat.toDigits 10 n := by
    rw [Nat.toString_eq_repr, Nat.toList_repr]
  have hall : (toString n).toList.all Char.isDigit = true :=
    List.all_eq_true.mpr fun c => isDigit_of_mem_toString
  have hsome : (toString n).toList.isEmpty = false := by
    rw [hdigits, List.isEmpty_eq_false_iff]
    exact Nat.toDigits_ne_nil
  rw [nat?, hall, hsome, hdigits, Nat.ofDigitChars_ten_toDigits]
  rfl

theorem int?_toString (k : Int) : int? (toString k).toList = some k := by
  rw [toString_int_eq]
  split_ifs with hk
  · have hhead : (toString k.toNat).toList.head? ≠ some '-' := fun h =>
      absurd (isDigit_of_mem_toString (List.mem_of_mem_head? h)) (by decide)
    rw [int?, if_neg hhead, nat?_toString, Option.map_some]
    exact congrArg some (Int.toNat_of_nonneg hk)
  · have hneg : ("-" ++ toString (-k).toNat).toList = '-' :: (toString (-k).toNat).toList := by simp
    rw [hneg, int?, List.head?_cons, if_pos rfl, List.tail_cons, nat?_toString, Option.map_some]
    refine congrArg some ?_
    change -((-k).toNat : Int) = k
    omega

theorem int?_cons_of_not_digit (hsign : c ≠ '-') (hdigit : c.isDigit = false) (cs : List Char) :
    int? (c :: cs) = none := by
  have hhead : (c :: cs).head? ≠ some '-' := by simpa using hsign
  have hnat : nat? (c :: cs) = none := by simp [nat?, hdigit]
  rw [int?, if_neg hhead, hnat, Option.map_none]

/-- The text has letters, digits and some marks. -/
def Spelled (marks : List Char) (s : String) : Prop :=
  ∀ c ∈ s.toList, c.isAlphanum = true ∨ c ∈ marks

theorem spelled_of_all (h : s.toList.all (fun c => c.isAlphanum || marks.contains c) = true) :
    Spelled marks s := by
  intro c hc
  simpa using List.all_eq_true.mp h c hc

theorem Spelled.append {a b : String} (ha : Spelled marks a) (hb : Spelled marks b) :
    Spelled marks (a ++ b) := by
  intro c hc
  rw [String.toList_append, List.mem_append] at hc
  exact hc.elim (ha c) (hb c)

theorem Spelled.mono (h : Spelled marks s) (hmarks : marks ⊆ marks') : Spelled marks' s :=
  fun c hc => (h c hc).imp_right fun hc => hmarks hc

theorem Spelled.not_mem (h : Spelled marks s) (hletter : c.isAlphanum = false) (hmarks : c ∉ marks) :
    c ∉ s.toList := by
  intro hc
  rcases h c hc with hletter' | hmark
  · rw [hletter] at hletter'
    cases hletter'
  · exact hmarks hmark

theorem spelled_toString_nat (marks : List Char) (n : Nat) : Spelled marks (toString n) := fun c hc =>
  .inl (by simp [Char.isAlphanum, isDigit_of_mem_toString hc])

theorem spelled_toString_int (hmarks : '-' ∈ marks) (k : Int) : Spelled marks (toString k) := by
  intro c hc
  rcases sign_or_isDigit_of_mem_toString hc with rfl | hdigit
  · exact .inr hmarks
  · exact .inl (by simp [Char.isAlphanum, hdigit])

theorem spelled_toString_of_nonneg (marks : List Char) {k : Int} (hk : 0 ≤ k) :
    Spelled marks (toString k) := by
  rw [toString_int_eq, if_pos hk]
  exact spelled_toString_nat marks _

end Text

/-! ### Lanes and masks -/

/-- The lane of a letter. -/
def Lane.ofLetter? (c : Char) : Option Lane :=
  if c = 'x' then some .x else if c = 'y' then some .y else if c = 'z' then some .z
  else if c = 'w' then some .w else none

/-- The lanes behind a name; none stand for all four in order. -/
def Swizzle.ofLetters? : Option (List Char) → Option Swizzle
  | none => some ⟨[.x, .y, .z, .w]⟩
  | some cs => (cs.mapM Lane.ofLetter?).map Swizzle.mk

/-- A place of a mask: the letter of its lane, or an underscore. -/
def WriteMask.bit? (letter : Char) (value : Nat) (c : Char) : Option Nat :=
  if c = letter then some value else if c = '_' then some 0 else none

/-- The mask behind a name; none stands for all four lanes. -/
def WriteMask.ofPlaces? : Option (List Char) → Option WriteMask
  | none => some ⟨15⟩
  | some [a, b, c, d] => do
    let x ← bit? 'x' 1 a
    let y ← bit? 'y' 2 b
    let z ← bit? 'z' 4 c
    let w ← bit? 'w' 8 d
    return ⟨x + y + z + w⟩
  | some _ => none

theorem Swizzle.ofLetters?_text (s : Swizzle) : ofLetters? (some s.text.toList) = some s := by
  have hletter : ∀ l : Lane, Lane.ofLetter? l.letter = some l := by decide
  have hlanes := mapM_map_of_forall (g := id) fun l (_ : l ∈ s.lanes) => hletter l
  rw [toList_text, ofLetters?, hlanes, List.map_id, Option.map_some]

theorem Swizzle.spelled_text (s : Swizzle) (marks : List Char) : Text.Spelled marks s.text := by
  intro c hc
  rw [toList_text] at hc
  obtain ⟨l, -, rfl⟩ := List.mem_map.mp hc
  have hletter : ∀ l : Lane, l.letter.isAlphanum = true := by decide
  exact .inl (hletter l)

namespace WriteMask

theorem ofSwizzle_lt (s : Swizzle) : (ofSwizzle s).bits < 16 := by
  have hinsert : ∀ l : Lane, ∀ n < 16, n ||| 1 <<< l.val < 16 := by decide
  have hfold : ∀ (ls : List Lane) (m : WriteMask), m.bits < 16 → (ls.foldl insert m).bits < 16 := by
    intro ls
    induction ls with
    | nil => exact fun m hm => hm
    | cons l ls ih => exact fun m hm => ih _ (hinsert l m.bits hm)
  exact hfold s.lanes empty (by decide)

theorem ofPlaces?_text {m : WriteMask} (h : m.bits < 16) : ofPlaces? (some m.text.toList) = some m := by
  have hall : ∀ n < 16, ofPlaces? (some (text ⟨n⟩).toList) = some ⟨n⟩ := by decide
  exact hall m.bits h

theorem spelled_text (m : WriteMask) : Text.Spelled ['_'] m.text := by
  intro c hc
  rw [text, String.toList_ofList] at hc
  obtain ⟨l, -, rfl⟩ := List.mem_map.mp hc
  have hletter : ∀ l : Lane, l.letter.isAlphanum = true := by decide
  split_ifs
  · exact .inl (hletter l)
  · exact .inr (by simp)

end WriteMask

/-! ### Places -/

namespace Place

/-- The name in front of the last dot and what stands behind it, unless a bracket follows the dot. -/
def cutLanes (cs : List Char) : List Char × Option (List Char) :=
  match Operand.splitLastDot? cs with
  | none => (cs, none)
  | some parts => if '[' ∈ parts.2 ∨ ']' ∈ parts.2 then (cs, none) else (parts.1, some parts.2)

/-- A place and the lanes behind it. -/
def readWith? (read? : List Char → Option Place) (cs : List Char) : Option (Place × Swizzle) := do
  let place ← read? (cutLanes cs).1
  let lanes ← Swizzle.ofLetters? (cutLanes cs).2
  return (place, lanes)

/-- The register of a name. -/
def readRegister? : List Char → Option Place
  | 'r' :: cs => (Text.nat? cs).map temp
  | 'l' :: cs => (Text.nat? cs).map literal
  | 'c' :: 'b' :: cs => do
    let slot ← Text.cut? '[' cs
    let index ← Text.cut? ']' slot.2
    let i ← Text.int? slot.1
    let j ← Text.int? index.1
    if index.2 = [] then some (constant i j) else none
  | cs =>
    if cs = "vAbsTid0".toList then some threadId
    else if cs = "vWinCoord0".toList then some windowPosition else none

/-- The offset behind a base. -/
def readOffset? : List Char → Option Int64
  | [] => some 0
  | '+' :: cs => (Text.int? cs).map Int64.ofInt
  | '-' :: cs => (Text.int? cs).map fun k => -Int64.ofInt k
  | _ => none

/-- The element of the global buffer between the brackets: a number, or a base with an offset. -/
def readElement? (cs : List Char) : Option Place :=
  match Text.int? cs with
  | some k => some (globalAt (Int64.ofInt k))
  | none => do
    let base ← readWith? readRegister? (cs.takeWhile fun c => c != '+' && c != '-')
    let offset ← readOffset? (cs.dropWhile fun c => c != '+' && c != '-')
    return globalFrom base.1 base.2 offset

/-- The place of a name. -/
def read? : List Char → Option Place
  | 'g' :: '[' :: cs => if cs.getLast? = some ']' then readElement? cs.dropLast else none
  | cs => readRegister? cs

variable {p : Place} {name : String}

theorem cutLanes_of_readable (h : Operand.Readable name) :
    cutLanes name.toList = (name.toList, none) := by
  by_cases hdot : '.' ∈ name.toList
  · obtain ⟨before, after, hcut, hafter⟩ := Operand.exists_lastDot hdot
    have hlast : name.toList.getLast? = some ']' := h.resolve_left (not_not_intro hdot)
    have hbracket : ']' ∈ after := by
      -- the bracket at the end stands behind the dot
      rw [hcut, List.getLast?_append, List.getLast?_cons] at hlast
      cases after using List.reverseRecOn with
      | nil => simp at hlast
      | append_singleton cs c =>
        simp only [List.getLast?_append, List.getLast?_singleton, Option.some_or, Option.getD_some,
          Option.some.injEq] at hlast
        simp [hlast]
    rw [cutLanes, hcut, Operand.splitLastDot?_append _ hafter]
    exact if_pos (.inr hbracket)
  · rw [cutLanes, Operand.splitLastDot?_of_not_mem hdot]

theorem cutLanes_append {s : String} (h : Text.Spelled ['_'] s) :
    cutLanes (name ++ "." ++ s).toList = (name.toList, some s.toList) := by
  have hcut : (name ++ "." ++ s).toList = name.toList ++ '.' :: s.toList := by simp
  have hopen : '[' ∉ s.toList := h.not_mem (by decide) (by decide)
  have hclose : ']' ∉ s.toList := h.not_mem (by decide) (by decide)
  rw [cutLanes, hcut, Operand.splitLastDot?_append _ (h.not_mem (by decide) (by decide))]
  exact if_neg (by simp [hopen, hclose])

theorem readWith?_laneText {read : List Char → Option Place} (hname : Operand.Readable name)
    (hread : read name.toList = some p) (lanes : Swizzle) :
    readWith? read (laneText name lanes).toList = some (p, lanes) := by
  by_cases hid : lanes = Swizzle.identity 4
  · have htext : laneText name lanes = name := by simp [laneText, hid]
    rw [htext, readWith?, cutLanes_of_readable hname, hread, hid]
    rfl
  · have htext : laneText name lanes = name ++ "." ++ lanes.text := by simp [laneText, hid]
    rw [htext, readWith?, cutLanes_append (lanes.spelled_text _), hread]
    simp only [Swizzle.ofLetters?_text]
    rfl

/-! #### Registers -/

theorem Register.readRegister?_text (h : p.Register) : readRegister? p.text.toList = some p := by
  cases p with
  | temp n =>
    have htext : (temp n).text.toList = 'r' :: (toString n).toList := by simp [text]
    rw [htext]
    change (Text.nat? _).map temp = _
    rw [Text.nat?_toString, Option.map_some]
  | literal n =>
    have htext : (literal n).text.toList = 'l' :: (toString n).toList := by simp [text]
    rw [htext]
    change (Text.nat? _).map literal = _
    rw [Text.nat?_toString, Option.map_some]
  | constant slot i =>
    have htext : (constant slot i).text.toList = 'c' :: 'b' :: ((toString slot).toList ++
        '[' :: ((toString i).toList ++ ']' :: [])) := by simp [text]
    have hslot : '[' ∉ (toString slot).toList := Text.not_mem_toString_int (by decide) slot
    have hindex : ']' ∉ (toString i).toList := Text.not_mem_toString_int (by decide) i
    rw [htext, readRegister?, Text.cut?_append hslot]
    simp only [Option.bind_eq_bind, Option.bind_some, Text.cut?_append hindex, Text.int?_toString,
      if_true]
  | threadId => rfl
  | windowPosition => rfl
  | globalAt | globalFrom | named => exact h.elim

theorem Register.spelled (h : p.Register) : Text.Spelled ['[', ']'] p.text := by
  cases p with
  | temp n | literal n =>
    refine .append (fun c hc => .inl ?_) (Text.spelled_toString_nat _ n)
    obtain rfl := List.mem_singleton.mp hc
    rfl
  | constant slot i =>
    have hslot := Text.spelled_toString_of_nonneg ['[', ']'] h.1
    have hindex := Text.spelled_toString_of_nonneg ['[', ']'] h.2
    refine .append (.append (.append (.append ?_ hslot) ?_) hindex) ?_
    all_goals exact Text.spelled_of_all (by decide)
  | threadId | windowPosition => exact Text.spelled_of_all (by decide)
  | globalAt | globalFrom | named => exact h.elim

/-- A register's name begins with a letter other than that of the global buffer. -/
theorem Register.text_eq_cons (h : p.Register) : ∃ c cs, p.text.toList = c :: cs ∧
    c ∈ ['r', 'l', 'c', 'v'] := by
  cases p with
  | temp n => exact ⟨'r', (toString n).toList, by simp [text], by decide⟩
  | literal n => exact ⟨'l', (toString n).toList, by simp [text], by decide⟩
  | constant slot i => exact ⟨'c', _, by simp [text]; rfl, by decide⟩
  | threadId | windowPosition => exact ⟨'v', _, rfl, by decide⟩
  | globalAt | globalFrom | named => exact h.elim

theorem Register.read?_text (h : p.Register) : read? p.text.toList = some p := by
  obtain ⟨c, cs, hcons, hc⟩ := h.text_eq_cons
  have hread : read? (c :: cs) = readRegister? (c :: cs) := by
    simp only [List.mem_cons, List.not_mem_nil, or_false] at hc
    rcases hc with rfl | rfl | rfl | rfl <;> rfl
  rw [hcons, hread, ← hcons, h.readRegister?_text]

/-! #### Elements of the global buffer -/

theorem spelled_laneText {marks : List Char} (hname : Text.Spelled marks name) (hdot : '.' ∈ marks)
    (lanes : Swizzle) : Text.Spelled marks (laneText name lanes) := by
  unfold laneText
  split_ifs
  · exact hname
  · refine .append (.append hname fun c hc => .inr ?_) (lanes.spelled_text _)
    obtain rfl := List.mem_singleton.mp hc
    exact hdot

theorem readOffset?_offsetText (offset : Int64) :
    readOffset? (offsetText offset).toList = some offset := by
  unfold offsetText
  split_ifs with hpos hneg
  · have htext : ("+" ++ toString offset.toInt).toList = '+' :: (toString offset.toInt).toList := by simp
    rw [htext, readOffset?, Text.int?_toString, Option.map_some, Int64.ofInt_toInt]
  · have htext : ("-" ++ toString (-offset).toInt).toList = '-' :: (toString (-offset).toInt).toList := by
      simp
    rw [htext, readOffset?, Text.int?_toString, Option.map_some, Int64.ofInt_toInt, Int64.neg_neg]
  · have hzero : offset = 0 := Int64.le_antisymm (Int64.not_lt.mp hpos) (Int64.not_lt.mp hneg)
    rw [hzero]
    rfl

/-- An offset is nothing or begins with its sign. -/
theorem offsetText_cases (offset : Int64) : (offsetText offset).toList = [] ∨
    ∃ c cs, (offsetText offset).toList = c :: cs ∧ (c != '+' && c != '-') = false := by
  unfold offsetText
  split_ifs
  · exact .inr ⟨'+', (toString offset.toInt).toList, by simp, rfl⟩
  · exact .inr ⟨'-', (toString (-offset).toInt).toList, by simp, rfl⟩
  · exact .inl rfl

theorem Register.readElement?_text (h : p.Register) (lanes : Swizzle) (offset : Int64) :
    readElement? ((laneText p.text lanes).toList ++ (offsetText offset).toList) =
      some (globalFrom p lanes offset) := by
  have hspelled : Text.Spelled ['[', ']', '.'] (laneText p.text lanes) :=
    spelled_laneText (h.spelled.mono (by decide)) (by decide) lanes
  have hnosign : ∀ c ∈ (laneText p.text lanes).toList, (c != '+' && c != '-') = true := by
    intro c hc
    have hplus : c ≠ '+' := fun hsign => hspelled.not_mem (by decide) (by decide) (hsign ▸ hc)
    have hminus : c ≠ '-' := fun hsign => hspelled.not_mem (by decide) (by decide) (hsign ▸ hc)
    simp [hplus, hminus]
  have htake : (offsetText offset).toList.takeWhile (fun c => c != '+' && c != '-') = [] ∧
      (offsetText offset).toList.dropWhile (fun c => c != '+' && c != '-') =
        (offsetText offset).toList := by
    rcases offsetText_cases offset with hnil | ⟨c, cs, hcons, hc⟩
    · rw [hnil]
      exact ⟨rfl, rfl⟩
    · rw [hcons, List.takeWhile_cons, List.dropWhile_cons, hc]
      exact ⟨rfl, rfl⟩
  -- the base begins with a letter, so the whole is no number
  have hint : Text.int? ((laneText p.text lanes).toList ++ (offsetText offset).toList) = none := by
    obtain ⟨c, cs, hcons, hc⟩ := h.text_eq_cons
    have hlane : ∃ ds, (laneText p.text lanes).toList = c :: ds := by
      unfold laneText
      split_ifs
      · exact ⟨cs, hcons⟩
      · exact ⟨cs ++ '.' :: lanes.text.toList, by simp [hcons]⟩
    obtain ⟨ds, hds⟩ := hlane
    have hletter : c ≠ '-' ∧ c.isDigit = false := by
      simp only [List.mem_cons, List.not_mem_nil, or_false] at hc
      rcases hc with rfl | rfl | rfl | rfl <;> decide
    rw [hds, List.cons_append]
    exact Text.int?_cons_of_not_digit hletter.1 hletter.2 _
  rw [readElement?, hint]
  simp only [List.takeWhile_append_of_pos hnosign, List.dropWhile_append_of_pos hnosign, htake,
    List.append_nil, readWith?_laneText h.plain.readable h.readRegister?_text, readOffset?_offsetText]
  rfl

/-- The name of a plain place is read as the place. -/
theorem Plain.read?_text (h : p.Plain) : read? p.text.toList = some p := by
  cases p with
  | globalAt offset =>
    have htext : (globalAt offset).text.toList =
        'g' :: '[' :: ((toString offset.toInt).toList ++ [']']) := by
      simp [text]
    rw [htext, read?, if_pos (by simp), List.dropLast_concat, readElement?, Text.int?_toString]
    exact congrArg (fun k => some (globalAt k)) (Int64.ofInt_toInt offset)
  | globalFrom base lanes offset =>
    have htext : (globalFrom base lanes offset).text.toList = 'g' :: '[' ::
        ((laneText base.text lanes).toList ++ (offsetText offset).toList ++ [']']) := by simp [text]
    rw [htext, read?, if_pos (by simp), List.dropLast_concat, Register.readElement?_text h]
  | temp | literal | constant | threadId | windowPosition | named => exact Register.read?_text h

theorem Plain.spelled (h : p.Plain) : Text.Spelled ['[', ']', '.', '+', '-'] p.text := by
  have hopen : Text.Spelled ['[', ']', '.', '+', '-'] "g[" :=
    Text.spelled_of_all (by decide)
  have hclose : Text.Spelled ['[', ']', '.', '+', '-'] "]" :=
    Text.spelled_of_all (by decide)
  have hnumber : ∀ k : Int, Text.Spelled ['[', ']', '.', '+', '-'] (toString k) :=
    Text.spelled_toString_int (by decide)
  cases p with
  | globalAt offset => exact .append (.append hopen (hnumber _)) hclose
  | globalFrom base lanes offset =>
    have hbase : Text.Spelled ['[', ']', '.', '+', '-'] base.text :=
      (Register.spelled h).mono (by decide)
    have hoffset : Text.Spelled ['[', ']', '.', '+', '-'] (offsetText offset) := by
      unfold offsetText
      split_ifs
      · exact .append (Text.spelled_of_all (by decide)) (hnumber _)
      · exact .append (Text.spelled_of_all (by decide)) (hnumber _)
      · exact fun c hc => absurd hc (by simp)
    exact .append (.append (.append hopen (spelled_laneText hbase (by decide) lanes)) hoffset) hclose
  | temp | literal | constant | threadId | windowPosition | named =>
    refine Text.Spelled.mono (?_ : Text.Spelled ['[', ']'] _) (by decide)
    exact Register.spelled h

end Place

/-! ### Operands -/

/-- The sign behind the underscore of a source. -/
def Sign.read? (cs : List Char) : Option Sign :=
  if cs = "neg(xyzw)".toList then some negated
  else if cs = "neg(yw)".toList ∨ cs = "neg(y)".toList then some highNegated else none

/-- The source that a text stands for. -/
def SourceOperand.read? (cs : List Char) : Option SourceOperand :=
  match Text.cut? '_' cs with
  | none => (Place.readWith? Place.read? cs).map fun o => ⟨o.1, o.2, .plain⟩
  | some parts => do
    let o ← Place.readWith? Place.read? parts.1
    let sign ← Sign.read? parts.2
    return ⟨o.1, o.2, sign⟩

/-- The destination that a text stands for. -/
def Destination.read? (cs : List Char) : Option Destination := do
  let place ← Place.read? (Place.cutLanes cs).1
  let mask ← WriteMask.ofPlaces? (Place.cutLanes cs).2
  return ⟨place, mask⟩

theorem SourceOperand.read?_text {s : SourceOperand} (h : s.place.Plain) :
    read? s.text.toList = some s := by
  obtain ⟨place, lanes, sign⟩ := s
  have hplace := Place.readWith?_laneText h.readable h.read?_text lanes
  have hspelled := Place.spelled_laneText h.spelled (by decide) lanes
  have hcut : '_' ∉ (laneText place.text lanes).toList := hspelled.not_mem (by decide) (by decide)
  have hsigned : ∀ (word : String) {sign' : Sign},
      (SourceOperand.mk place lanes sign').text = laneText place.text lanes ++ "_" ++ word →
      Sign.read? word.toList = some sign' →
      read? (SourceOperand.mk place lanes sign').text.toList = some ⟨place, lanes, sign'⟩ := by
    intro word sign' htext hsign
    have hword : (laneText place.text lanes ++ "_" ++ word).toList =
      (laneText place.text lanes).toList ++ '_' :: word.toList := by simp
    rw [htext, hword, read?, Text.cut?_append hcut]
    simp only [hplace, hsign]
    rfl
  cases sign with
  | plain =>
    have htext : (SourceOperand.mk place lanes .plain).text = laneText place.text lanes := by
      simp [text, Sign.text]
    rw [htext, read?, Text.cut?_of_not_mem hcut]
    simp only [hplace]
    rfl
  | negated => exact hsigned "neg(xyzw)" (by simp [text, Sign.text, String.append_assoc]) rfl
  | highNegated =>
    by_cases hcount : lanes.count = 4
    · exact hsigned "neg(yw)" (by simp [text, Sign.text, hcount, String.append_assoc]) rfl
    · exact hsigned "neg(y)" (by simp [text, Sign.text, hcount, String.append_assoc]) rfl

theorem SourceOperand.comma_not_mem {s : SourceOperand} (h : s.place.Plain) : ',' ∉ s.text.toList := by
  have hlanes : ',' ∉ (laneText s.place.text s.lanes).toList :=
    (Place.spelled_laneText h.spelled (by decide) s.lanes).not_mem (by decide) (by decide)
  have hsign : ',' ∉ (s.sign.text s.lanes.count).toList := by
    cases s.sign with
    | plain | negated => simp [Sign.text]
    | highNegated =>
      unfold Sign.text
      split_ifs
      · simp
      · simp
  rw [text, String.toList_append, List.mem_append]
  exact fun hc => hc.elim hlanes hsign

theorem Destination.read?_text {d : Destination} (h : d.place.Plain) (hmask : d.mask.bits < 16) :
    read? d.text.toList = some d := by
  unfold text
  split_ifs with hfull
  · rw [read?, Place.cutLanes_of_readable h.readable, h.read?_text]
    exact congrArg (fun m => some (⟨d.place, m⟩ : Destination)) (eq_of_beq hfull).symm
  · rw [read?, Place.cutLanes_append d.mask.spelled_text, h.read?_text]
    simp only [WriteMask.ofPlaces?_text hmask]
    rfl

theorem Destination.comma_not_mem {d : Destination} (h : d.place.Plain) : ',' ∉ d.text.toList := by
  have hplace : ',' ∉ d.place.text.toList := h.spelled.not_mem (by decide) (by decide)
  have hmask : ',' ∉ d.mask.text.toList := d.mask.spelled_text.not_mem (by decide) (by decide)
  unfold text
  split_ifs
  · exact hplace
  · simp [hplace, hmask]

/-! ### Lines -/

/-- The mnemonics without an argument. -/
def Mnemonic.words : List (String × Mnemonic) :=
  [("mov", mov), ("add", add), ("dadd", dadd), ("iadd", iadd), ("sub", sub), ("mul", mul),
    ("dmul", dmul), ("imul", imul), ("umul", umul), ("div_zeroop(infinity)", div), ("ddiv", ddiv),
    ("idiv", idiv), ("udiv", udiv), ("imod", imod), ("umod", umod), ("min", min), ("dmin", dmin),
    ("imin", imin), ("umin", umin), ("max", max), ("dmax", dmax), ("imax", imax), ("umax", umax),
    ("mad", mad), ("dmad", dmad), ("imad", imad), ("umad", umad), ("cmov_logical", cmov),
    ("inegate", inegate), ("iand", iand), ("ior", ior), ("ixor", ixor), ("inot", inot),
    ("ishl", ishl), ("ishr", ishr), ("ushr", ushr), ("eq", eq), ("deq", deq), ("ieq", ieq),
    ("ne", ne), ("dne", dne), ("ine", ine), ("lt", lt), ("dlt", dlt), ("ilt", ilt), ("ult", ult),
    ("ge", ge), ("dge", dge), ("ige", ige), ("uge", uge), ("abs", abs), ("sqrt_vec", sqrt),
    ("rsq_vec", rsqrt), ("round_neginf", floor), ("round_plusinf", ceil), ("frc", fract),
    ("dp2_ieee", dot2), ("dp4_ieee", dot4), ("bitalign", bitAlign), ("bytealign", byteAlign),
    ("bfi", bitInsert), ("ubit_extract", ubitExtract), ("ibit_extract", ibitExtract),
    ("itof", itof), ("utof", utof), ("ftoi", ftoi), ("ftou", ftou), ("d2f", d2f), ("f2d", f2d),
    ("itod", itod), ("utod", utod), ("dtoi", dtoi), ("dtou", dtou), ("", blank)]

/-- The mnemonic of a sample, which names the slot of its input twice. -/
def Mnemonic.readSample? (cs : List Char) : Option Mnemonic := do
  let word ← Text.cut? '(' cs
  let slot ← Text.cut? ')' word.2
  let k ← Text.int? slot.1
  if word.1 = "sample_resource".toList ∧ slot.2 = "_sampler(".toList ++ slot.1 ++ [')'] then
    some (sample k)
  else none

/-- The mnemonic that a text stands for. -/
def Mnemonic.read? (cs : List Char) : Option Mnemonic :=
  (readSample? cs).or (words.lookup (String.ofList cs))

/-- The instruction of a keyword and its operands. -/
def Instruction.read? (word operands : List Char) : Option Instruction := do
  let mnemonic ← Mnemonic.read? word
  let dst ← (operands.splitOn ',').head?
  let dst ← Destination.read? dst
  let srcs ← (operands.splitOn ',').tail.mapM SourceOperand.read?
  return ⟨mnemonic, dst, srcs⟩

/-- The flow keywords that stand alone. -/
def FlowWord.words : List (String × FlowWord) :=
  [("whileloop", whileLoop), ("endloop", endLoop), ("break", breakLoop), ("continue", continueLoop),
    ("else", elseBranch), ("endif", endIf)]

namespace Line

/-- The line of code that a text without its line break stands for. -/
def read? (cs : List Char) : Option Line :=
  match Text.cut? ' ' cs with
  | none => (FlowWord.words.lookup (String.ofList cs)).map word
  | some parts =>
    if parts.1 = [';'] then some (comment (String.ofList parts.2))
    else if parts.1 = "if_logicalnz".toList then (SourceOperand.read? parts.2).map (test .ifTrue)
    else if parts.1 = "break_logicalnz".toList then (SourceOperand.read? parts.2).map (test .breakTrue)
    else (Instruction.read? parts.1 parts.2).map instruction

/-- The lines of code of a program, which the line `end` closes. -/
def readAll? (code : String) : Option (List Line) :=
  if (Text.lines code).getLast? = some "end\n" then
    (Text.lines code).dropLast.mapM fun l => read? l.toList.dropLast
  else none

/-- The line as it stands in the text: a comment is on one line. -/
def flattened : Line → Line
  | comment s => comment (flatten s)
  | l => l

end Line

theorem Mnemonic.text_sample (slot : Int) : (sample slot).text =
    "sample_resource(" ++ toString slot ++ ")_sampler(" ++ toString slot ++ ")" := rfl

theorem Mnemonic.readSample?_text (slot : Int) :
    readSample? (sample slot).text.toList = some (sample slot) := by
  have htext : (sample slot).text.toList = "sample_resource".toList ++ '(' :: ((toString slot).toList ++
      ')' :: ("_sampler(".toList ++ (toString slot).toList ++ [')'])) := by
    rw [text_sample]
    simp
  have hclose : ')' ∉ (toString slot).toList := Text.not_mem_toString_int (by decide) slot
  rw [htext, readSample?, Text.cut?_append (by decide)]
  simp only [Option.bind_eq_bind, Option.bind_some, Text.cut?_append hclose, Text.int?_toString,
    and_self, if_true]

theorem Mnemonic.read?_text (m : Mnemonic) : read? m.text.toList = some m := by
  cases m with
  | sample slot => rw [read?, readSample?_text, Option.some_or]
  | _ => decide +kernel

theorem Mnemonic.blank_not_mem (m : Mnemonic) : ' ' ∉ m.text.toList := by
  cases m with
  | sample slot =>
    have hnumber : ' ' ∉ (toString slot).toList := Text.not_mem_toString_int (by decide) slot
    simp only [text_sample, String.toList_append, List.mem_append, hnumber, or_false]
    simp
  | _ => decide

/-- No mnemonic is a flow keyword or the mark of a comment: these are not read as one. -/
theorem Mnemonic.text_ne (m : Mnemonic) :
    m.text.toList ≠ [';'] ∧ m.text.toList ≠ "if_logicalnz".toList ∧
      m.text.toList ≠ "break_logicalnz".toList := by
  have hread : ∀ cs : List Char, read? cs = none → m.text.toList ≠ cs := by
    intro cs hnone htext
    rw [← htext, read?_text] at hnone
    cases hnone
  exact ⟨hread _ (by decide +kernel), hread _ (by decide +kernel), hread _ (by decide +kernel)⟩

theorem Instruction.read?_text {i : Instruction} (h : i.In .plain) :
    read? i.mnemonic.text.toList (",".intercalate (i.dst.text :: i.srcs.map SourceOperand.text)).toList =
      some i := by
  obtain ⟨lanes, hmask⟩ := h.mask
  have hdst : Destination.read? i.dst.text.toList = some i.dst :=
    Destination.read?_text h.dst (by rw [hmask]; exact WriteMask.ofSwizzle_lt lanes)
  have hsplit : (",".intercalate (i.dst.text :: i.srcs.map SourceOperand.text)).toList.splitOn ',' =
      i.dst.text.toList :: i.srcs.map fun s => s.text.toList := by
    rw [String.toList_intercalate, List.map_cons, List.map_map]
    refine List.splitOn_intercalate ',' (List.forall_mem_cons.mpr ⟨?_, fun l hl => ?_⟩) (by simp)
    · exact Destination.comma_not_mem h.dst
    · obtain ⟨s, hs, rfl⟩ := List.mem_map.mp hl
      exact SourceOperand.comma_not_mem (h.srcs s hs)
  have hsrcs : (i.srcs.map fun s => s.text.toList).mapM SourceOperand.read? = some i.srcs := by
    have hread : ∀ s ∈ i.srcs, SourceOperand.read? s.text.toList = some (id s) :=
      fun s hs => SourceOperand.read?_text (h.srcs s hs)
    rw [mapM_map_of_forall hread, List.map_id]
  rw [read?, Mnemonic.read?_text, hsplit]
  simp only [Option.bind_eq_bind, Option.bind_some, List.head?_cons, hdst, List.tail_cons, hsrcs]
  rfl

namespace Line

theorem dropLast_append_break (s : String) : (s ++ "\n").toList.dropLast = s.toList := by
  rw [String.toList_append]
  exact List.dropLast_concat

/-- A line on plain places is read from its text. -/
theorem read?_text {l : Line} (h : l.In .plain) : read? l.text.toList.dropLast = some l.flattened := by
  cases l with
  | instruction i =>
    have htext : i.text.toList = i.mnemonic.text.toList ++ ' ' ::
        (",".intercalate (i.dst.text :: i.srcs.map SourceOperand.text)).toList := by
      simp [Instruction.text]
    obtain ⟨hcomment, hif, hbreak⟩ := i.mnemonic.text_ne
    rw [text, dropLast_append_break, htext, read?, Text.cut?_append i.mnemonic.blank_not_mem]
    simp only [hcomment, hif, hbreak, if_false, Instruction.read?_text h]
    rfl
  | word w =>
    rw [text, dropLast_append_break]
    cases w <;> rfl
  | test t c =>
    have htext : (t.text ++ " " ++ c.text).toList = t.text.toList ++ ' ' :: c.text.toList := by simp
    have hread : SourceOperand.read? c.text.toList = some c := SourceOperand.read?_text h
    rw [text, dropLast_append_break, htext, read?]
    cases t with
    | ifTrue =>
      rw [Text.cut?_append (by decide)]
      simp only
      rw [if_neg (by decide), if_pos (by decide), hread]
      rfl
    | breakTrue =>
      rw [Text.cut?_append (by decide)]
      simp only
      rw [if_neg (by decide), if_neg (by decide), if_pos (by decide), hread]
      rfl
  | comment s =>
    have htext : ("; " ++ flatten s).toList = [';'] ++ ' ' :: (flatten s).toList := by simp
    rw [text, dropLast_append_break, htext, read?, Text.cut?_append (by decide)]
    simp only
    rw [if_pos trivial, String.ofList_toList]
    rfl

/-- **Code is read back from its text.** The lines of a program are recovered from the text of its code
if their places are plain; a comment is recovered on one line. -/
theorem readAll?_text {ls : List Line} (h : ∀ l ∈ ls, l.In .plain) :
    readAll? (String.join (ls.map text) ++ "end\n") = some (ls.map flattened) := by
  have hsingle : ∀ t ∈ ls.map text ++ ["end\n"], Text.SingleLine t := by
    intro t ht
    rcases List.mem_append.mp ht with ht | ht
    · obtain ⟨l, hl, rfl⟩ := List.mem_map.mp ht
      exact (h l hl).flat.singleLine
    · rw [List.mem_singleton.mp ht]
      exact ⟨"end", by simp [Text.Flat], rfl⟩
  have hlines : Text.lines (String.join (ls.map text) ++ "end\n") = ls.map text ++ ["end\n"] := by
    have hjoin : String.join (ls.map text) ++ "end\n" = String.join (ls.map text ++ ["end\n"]) := by simp
    rw [hjoin, Text.lines_join_of_singleLine hsingle]
  rw [readAll?, hlines, if_pos (by simp), List.dropLast_concat]
  exact mapM_map_of_forall fun l hl => read?_text (h l hl)

end Line

end ShaderIL
