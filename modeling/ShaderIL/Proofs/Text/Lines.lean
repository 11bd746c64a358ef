import Mathlib.Tactic
import ShaderIL.Instruction

/-!
# Lines of text

A text is `Flat` if it has no line break and a `SingleLine` if it has one, at its end. `lines` cuts a
text after its line breaks, and finds the lines that a text was joined from (`lines_join`). A number is
written in digits, after a sign if it is negative, so a text that goes on with another character shows
where the number ends (`begins_delimited_iff`). `linesFrom` picks the lines that begin with a text;
seven characters tell the kinds of declarations apart (`tag`).
-/

namespace ShaderIL.Text

variable {a b p l : String} {c : Char}

/-! ### Texts without a line break -/

/-- The text has no line break. -/
def Flat (s : String) : Prop := '\n' ∉ s.toList

/-- The text is one line: a line break at the end and no other. -/
def SingleLine (s : String) : Prop := ∃ t, Flat t ∧ s = t ++ "\n"

@[simp] theorem flat_append : Flat (a ++ b) ↔ Flat a ∧ Flat b := by
  simp [Flat]

theorem flat_intercalate {ls : List String} (ha : Flat a) (hls : ∀ l ∈ ls, Flat l) :
    Flat (a.intercalate ls) := by
  induction ls with
  | nil => simp [Flat]
  | cons l ls ih =>
    have hl : Flat l := hls l List.mem_cons_self
    have hrest := ih fun m hm => hls m (List.mem_cons_of_mem _ hm)
    unfold Flat at *
    cases ls <;> simp_all

theorem flat_flatten (s : String) : Flat (Line.flatten s) := by
  intro h
  rw [Line.flatten, String.toList_ofList] at h
  obtain ⟨c, -, hc⟩ := List.mem_map.mp h
  split_ifs at hc with hbreak
  · cases hc
  · exact hbreak (by rw [hc]; rfl)

theorem SingleLine.countBreaks (h : SingleLine a) : Line.countBreaks a = 1 := by
  obtain ⟨t, ht, rfl⟩ := h
  rw [Line.countBreaks, String.toList_append, List.count_append, List.count_eq_zero_of_not_mem ht]
  rfl

theorem countBreaks_append (a b : String) :
    Line.countBreaks (a ++ b) = Line.countBreaks a + Line.countBreaks b := by
  simp [Line.countBreaks]

theorem countBreaks_join {ls : List String} (h : ∀ l ∈ ls, SingleLine l) :
    Line.countBreaks (String.join ls) = ls.length := by
  induction ls with
  | nil => rfl
  | cons l ls ih =>
    rw [String.join_cons, countBreaks_append, (h l List.mem_cons_self).countBreaks,
      ih fun m hm => h m (List.mem_cons_of_mem _ hm), List.length_cons, Nat.add_comm]

/-! ### Cutting a text into lines -/

/-- Characters cut after each line break. -/
def cutLines : List Char → List (List Char)
  | [] => []
  | c :: cs =>
    if c = '\n' then [c] :: cutLines cs
    else
      match cutLines cs with
      | [] => [[c]]
      | l :: ls => (c :: l) :: ls

/-- The lines of a text, each with the line break at its end. -/
def lines (s : String) : List String := (cutLines s.toList).map String.ofList

theorem cutLines_ne_nil {cs : List Char} (h : cs ≠ []) : cutLines cs ≠ [] := by
  cases cs with
  | nil => exact absurd rfl h
  | cons c cs =>
    rw [cutLines]
    split_ifs
    · simp
    · split <;> simp

theorem cutLines_append (cs ds : List Char) :
    cutLines (cs ++ '\n' :: ds) = cutLines (cs ++ ['\n']) ++ cutLines ds := by
  induction cs with
  | nil => rfl
  | cons c cs ih =>
    have hne : cs ++ ['\n'] ≠ [] := by simp
    obtain ⟨l, ls, hls⟩ := List.exists_cons_of_ne_nil (cutLines_ne_nil hne)
    rw [hls] at ih
    simp only [List.cons_append, cutLines, ih, hls]
    split_ifs <;> rfl

theorem cutLines_of_flat {cs : List Char} (h : '\n' ∉ cs) :
    cutLines (cs ++ ['\n']) = [cs ++ ['\n']] := by
  induction cs with
  | nil => rfl
  | cons c cs ih =>
    have hc : c ≠ '\n' := fun hc => h (hc ▸ List.mem_cons_self)
    have hcs := ih fun hcs => h (List.mem_cons_of_mem _ hcs)
    rw [List.cons_append, cutLines, if_neg hc, hcs]

/-- The text ends in a line break. -/
def Ended (s : String) : Prop := ∃ t, s = t ++ "\n"

theorem lines_append (ha : Ended a) (b : String) : lines (a ++ b) = lines a ++ lines b := by
  obtain ⟨t, rfl⟩ := ha
  have hcut := cutLines_append t.toList b.toList
  simp only [lines, String.toList_append, List.append_assoc]
  exact (congrArg (List.map String.ofList) hcut).trans List.map_append

theorem SingleLine.ended (h : SingleLine a) : Ended a := by
  obtain ⟨t, -, ht⟩ := h
  exact ⟨t, ht⟩

theorem SingleLine.lines_eq (h : SingleLine a) : lines a = [a] := by
  obtain ⟨t, ht, rfl⟩ := h
  have hcut : cutLines (t ++ "\n").toList = [(t ++ "\n").toList] := by
    rw [String.toList_append]
    exact cutLines_of_flat ht
  rw [lines, hcut, List.map_singleton, String.ofList_toList]

theorem lines_join {ls : List String} (h : ∀ l ∈ ls, Ended l) :
    lines (String.join ls) = ls.flatMap lines := by
  induction ls with
  | nil => rfl
  | cons l ls ih =>
    rw [String.join_cons, lines_append (h l List.mem_cons_self),
      ih fun m hm => h m (List.mem_cons_of_mem _ hm), List.flatMap_cons]

theorem flatMap_lines {ls : List String} (h : ∀ l ∈ ls, SingleLine l) : ls.flatMap lines = ls := by
  induction ls with
  | nil => rfl
  | cons l ls ih =>
    rw [List.flatMap_cons, (h l List.mem_cons_self).lines_eq,
      ih fun m hm => h m (List.mem_cons_of_mem _ hm), List.singleton_append]

theorem lines_join_of_singleLine {ls : List String} (h : ∀ l ∈ ls, SingleLine l) :
    lines (String.join ls) = ls := by
  rw [lines_join fun l hl => (h l hl).ended, flatMap_lines h]

/-! ### Bytes -/

theorem bytes_injective {a b : String} (h : bytes a = bytes b) : a = b := by
  have hencode : a.toList.utf8Encode = b.toList.utf8Encode := by
    unfold bytes at h
    rw [List.utf8Encode, List.utf8Encode, h]
  rw [String.utf8Encode_toList, String.utf8Encode_toList] at hencode
  exact String.toByteArray_inj.mp hencode

/-! ### Numbers -/

theorem isDigit_of_mem_toString {n : Nat} {c : Char} (h : c ∈ (toString n).toList) :
    c.isDigit = true := by
  rw [Nat.toString_eq_repr, Nat.toList_repr] at h
  exact Nat.isDigit_of_mem_toDigits (by decide) (by decide) h

theorem toString_nat_injective {m n : Nat} (h : toString m = toString n) : m = n := by
  rw [Nat.toString_eq_repr, Nat.toString_eq_repr, ← String.toList_inj, Nat.toList_repr,
    Nat.toList_repr] at h
  rw [← Nat.ofDigitChars_ten_toDigits (n := m), h, Nat.ofDigitChars_ten_toDigits]

/-- An integer is written as a natural number, after a sign if it is negative. -/
theorem toString_int_eq (k : Int) :
    toString k = if 0 ≤ k then toString k.toNat else "-" ++ toString (-k).toNat := by
  rw [Int.toString_eq_repr, Int.repr_eq_if, Nat.toString_eq_repr, Nat.toString_eq_repr]

theorem sign_or_isDigit_of_mem_toString {k : Int} {c : Char} (h : c ∈ (toString k).toList) :
    c = '-' ∨ c.isDigit = true := by
  rw [toString_int_eq] at h
  split_ifs at h
  · exact .inr (isDigit_of_mem_toString h)
  · rw [String.toList_append, List.mem_append] at h
    exact h.imp (fun h => by simpa using h) isDigit_of_mem_toString

theorem toString_int_injective {j k : Int} (h : toString j = toString k) : j = k := by
  -- a sign is no digit, so both are negative or none is
  have hsign : ∀ m n : Nat, toString m ≠ "-" ++ toString n := by
    intro m n hmn
    have hmem : '-' ∈ (toString m).toList := by simp [hmn]
    exact absurd (isDigit_of_mem_toString hmem) (by decide)
  rw [toString_int_eq, toString_int_eq k] at h
  split_ifs at h with hj hk hk
  · have := toString_nat_injective h
    omega
  · exact absurd h (hsign _ _)
  · exact absurd h.symm (hsign _ _)
  · rw [← String.toList_inj, String.toList_append, String.toList_append,
      List.append_cancel_left_eq, String.toList_inj] at h
    have := toString_nat_injective h
    omega

theorem flat_toString_nat (n : Nat) : Flat (toString n) := fun h =>
  absurd (isDigit_of_mem_toString h) (by decide)

theorem flat_toString_int (k : Int) : Flat (toString k) := fun h =>
  absurd (sign_or_isDigit_of_mem_toString h) (by decide)

/-- A number ends where the delimiter after it stands. -/
theorem delimited_prefix_iff {xs ys rest : List Char} {c : Char} (hx : c ∉ xs) (hy : c ∉ ys) :
    xs ++ [c] <+: ys ++ c :: rest ↔ xs = ys := by
  induction xs generalizing ys with
  | nil =>
    cases ys with
    | nil => simp
    | cons y ys =>
      have hne : c ≠ y := fun h => hy (h ▸ List.mem_cons_self)
      simp [List.cons_prefix_cons, hne]
  | cons x xs ih =>
    have hne : x ≠ c := fun h => hx (h ▸ List.mem_cons_self)
    have hxs : c ∉ xs := fun h => hx (List.mem_cons_of_mem _ h)
    cases ys with
    | nil => simp [List.cons_prefix_cons, hne]
    | cons y ys =>
      have hys : c ∉ ys := fun h => hy (List.mem_cons_of_mem _ h)
      rw [List.cons_append, List.cons_append, List.cons_prefix_cons, ih hxs hys, List.cons.injEq]

theorem not_mem_toString_int (h : ¬ (c = '-' ∨ c.isDigit = true)) (k : Int) :
    c ∉ (toString k).toList := fun hc => h (sign_or_isDigit_of_mem_toString hc)

theorem not_mem_toString_nat (h : c.isDigit ≠ true) (n : Nat) : c ∉ (toString n).toList :=
  fun hc => h (isDigit_of_mem_toString hc)

/-! ### Beginnings of lines -/

/-- The text begins with another one. -/
def Begins (p l : String) : Prop := p.toList <+: l.toList

theorem Begins.append (h : Begins p l) (m : String) : Begins p (l ++ m) := by
  unfold Begins at *
  rw [String.toList_append]
  exact h.trans (List.prefix_append _ _)

theorem begins_append (p m : String) : Begins p (p ++ m) := by
  unfold Begins
  rw [String.toList_append]
  exact List.prefix_append _ _

theorem begins_append_append (p m n : String) : Begins (p ++ m) (p ++ (m ++ n)) := by
  rw [← String.append_assoc]
  exact begins_append _ _

/-- Of two numbers behind the same front and with the same delimiter a line begins with one only. -/
theorem begins_delimited_iff (front x y delimiter : String) (c : Char)
    (hl : Begins (front ++ y ++ delimiter) l) (hc : delimiter.toList = [c]) (hx : c ∉ x.toList)
    (hy : c ∉ y.toList) : Begins (front ++ x ++ delimiter) l ↔ x = y := by
  refine ⟨fun hl' => ?_, fun hxy => hxy ▸ hl⟩
  have hcases := List.prefix_or_prefix_of_prefix hl' hl
  simp only [String.toList_append, List.append_assoc, hc, List.prefix_append_right_inj] at hcases
  rw [← String.toList_inj]
  rcases hcases with h | h
  · exact (delimited_prefix_iff hx hy).mp h
  · exact ((delimited_prefix_iff hy hx).mp h).symm

/-- The characters that tell the kinds of header lines apart. -/
def tag (l : String) : List Char := l.toList.take 7

theorem Begins.tag_eq (h : Begins p l) (hp : 7 ≤ p.toList.length) : tag l = tag p := by
  obtain ⟨rest, hrest⟩ := h
  rw [tag, ← hrest, List.take_append_of_le_length hp]
  rfl

theorem Begins.length_le (h : Begins p l) : p.toList.length ≤ l.toList.length :=
  List.IsPrefix.length_le h

/-- The lines that begin with a text. -/
def linesFrom (p : String) (ls : List String) : List String :=
  ls.filter fun l => p.toList.isPrefixOf l.toList

theorem linesFrom_append (p : String) (ls ms : List String) :
    linesFrom p (ls ++ ms) = linesFrom p ls ++ linesFrom p ms := List.filter_append _ _

theorem linesFrom_cons_of_begins (h : Begins p l) (ls : List String) :
    linesFrom p (l :: ls) = l :: linesFrom p ls :=
  List.filter_cons_of_pos (List.isPrefixOf_iff_prefix.mpr h)

theorem linesFrom_cons_of_not_begins (h : ¬ Begins p l) (ls : List String) :
    linesFrom p (l :: ls) = linesFrom p ls :=
  List.filter_cons_of_neg (mt List.isPrefixOf_iff_prefix.mp h)

/-- Lines of another kind do not begin with the text. -/
theorem linesFrom_eq_nil_of_tag {ls : List String} (hp : 7 ≤ p.toList.length)
    (h : ∀ l ∈ ls, tag l ≠ tag p) : linesFrom p ls = [] := by
  refine List.filter_eq_nil_iff.mpr fun l hl hprefix => h l hl ?_
  have hbegins : Begins p l := List.isPrefixOf_iff_prefix.mp hprefix
  exact hbegins.tag_eq hp

end ShaderIL.Text
