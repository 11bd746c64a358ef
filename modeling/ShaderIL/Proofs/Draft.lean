import ShaderIL.Assembler.Draft
import ShaderIL.Proofs.Assembler.LiteralTable

/-!
# Running emission

What the steps of the monad `Emit` do to a draft, as equations, and the order in which drafts grow:
`Draft.Grows d d' is` says that `d'` has `d`'s code followed by the instructions `is`, which are counted,
no fewer registers and a literal table that grew from `d`'s; `Draft.Extends` adds that the instructions
write registers taken in between. Every emission grows the draft; the lemmas here are the ones for
the basic steps.
-/

namespace ShaderIL

theorem except_bind_eq_ok {ε α β : Type} {x : Except ε α} {f : α → Except ε β} {b : β} :
    (x >>= f) = .ok b ↔ ∃ a, x = .ok a ∧ f a = .ok b := by
  cases x with
  | error e => exact ⟨nofun, fun ⟨_, h, _⟩ => nomatch h⟩
  | ok a =>
    refine ⟨fun h => ⟨a, rfl, h⟩, ?_⟩
    rintro ⟨_, h, h'⟩
    cases h
    exact h'

@[simp] theorem Line.breaks_nil : Line.breaks [] = 0 := rfl

@[simp] theorem Line.breaks_cons (l : Line) (ls : List Line) :
    Line.breaks (l :: ls) = Line.countBreaks l.text + Line.breaks ls := rfl

theorem Line.breaks_append (ls ms : List Line) :
    Line.breaks (ls ++ ms) = Line.breaks ls + Line.breaks ms := by
  induction ls with
  | nil => simp
  | cons l ls ih => rw [List.cons_append, breaks_cons, breaks_cons, ih, Nat.add_assoc]

namespace Emit

variable {α β : Type}

theorem bind_eq (x : Emit α) (f : α → Emit β) (d : Draft) :
    (x >>= f) d = (x d >>= fun r => f r.1 r.2) := rfl

theorem bind_ok_iff {x : Emit α} {f : α → Emit β} {d : Draft} {r : β × Draft} :
    (x >>= f) d = .ok r ↔ ∃ a d1, x d = .ok (a, d1) ∧ f a d1 = .ok r := by
  rw [bind_eq, except_bind_eq_ok]
  exact ⟨fun ⟨⟨a, d1⟩, hx, hf⟩ => ⟨a, d1, hx, hf⟩, fun ⟨a, d1, hx, hf⟩ => ⟨(a, d1), hx, hf⟩⟩

theorem bind_of_ok {x : Emit α} {f : α → Emit β} {d d1 : Draft} {a : α}
    (h : x d = .ok (a, d1)) : (x >>= f) d = f a d1 := by
  rw [bind_eq, h]
  rfl

theorem pure_eq (a : α) (d : Draft) : (pure a : Emit α) d = .ok (a, d) := rfl

theorem throw_ne_ok {e : Fault} {d : Draft} {r : α × Draft} :
    (throw e : Emit α) d ≠ .ok r := by
  intro h
  cases h

theorem lift_ok {x : Except Fault α} {a : α} (h : x = .ok a) (d : Draft) :
    (liftM x : Emit α) d = .ok (a, d) := by
  rw [h]
  rfl

theorem lift_ok_iff {x : Except Fault α} {d : Draft} {r : α × Draft} :
    (liftM x : Emit α) d = .ok r ↔ x = .ok r.1 ∧ r.2 = d := by
  cases x with
  | error e => exact ⟨nofun, fun h => nomatch h.1⟩
  | ok a =>
    refine ⟨fun h => ?_, fun ⟨h, hd⟩ => ?_⟩
    · cases h
      exact ⟨rfl, rfl⟩
    · cases h
      subst hd
      rfl

theorem bind_lift_ok_iff {x : Except Fault α} {f : α → Emit β} {d : Draft} {r : β × Draft} :
    ((liftM x : Emit α) >>= f) d = .ok r ↔ ∃ a, x = .ok a ∧ f a d = .ok r := by
  rw [bind_ok_iff]
  constructor
  · rintro ⟨a, d1, hx, hf⟩
    obtain ⟨ha, hd⟩ := lift_ok_iff.mp hx
    exact ⟨a, ha, hd ▸ hf⟩
  · rintro ⟨a, ha, hf⟩
    exact ⟨a, d, lift_ok ha d, hf⟩

end Emit

namespace Draft

/-! ### Basic steps -/

/-- The draft with instructions appended. -/
def appended (d : Draft) (is : List Instruction) : Draft := d.written (is.map Line.instruction)

/-- The draft with `n` more registers taken. -/
def taken (d : Draft) (n : Nat) : Draft := { d with next := d.next + n }

theorem alloc_eq (t : ValueType) (d : Draft) :
    alloc t d = .ok (Operand.ofType (.temp d.next) t, d.taken 1) := rfl

theorem writeAll_eq (is : List Instruction) (d : Draft) :
    writeAll is d = .ok ((), d.appended is) := rfl

/-- The registers from `start` on as operands of a type. -/
def registersFrom (t : ValueType) (start n : Nat) : List Operand :=
  (List.range n).map fun i => Operand.ofType (.temp (start + i)) t

theorem length_registersFrom (t : ValueType) (start n : Nat) :
    (registersFrom t start n).length = n := by
  simp [registersFrom]

theorem registersFrom_succ (t : ValueType) (start n : Nat) :
    registersFrom t start (n + 1) =
      Operand.ofType (.temp start) t :: registersFrom t (start + 1) n := by
  rw [registersFrom, List.range_succ_eq_map, List.map_cons, List.map_map, registersFrom]
  simp only [Nat.add_zero, List.cons.injEq, true_and]
  refine List.map_congr_left fun i _ => ?_
  simp only [Function.comp_apply]
  congr 2
  omega

theorem allocMany_eq (t : ValueType) : ∀ (n : Nat) (d : Draft),
    allocMany t n d = .ok (registersFrom t d.next n, d.taken n)
  | 0, _ => rfl
  | n + 1, d => by
    rw [allocMany, Emit.bind_of_ok (alloc_eq t d),
      Emit.bind_of_ok (allocMany_eq t n (d.taken 1)), registersFrom_succ, Emit.pure_eq]
    simp only [taken]
    congr 3
    omega

@[simp] theorem written_next (d : Draft) (ls : List Line) : (d.written ls).next = d.next := rfl

@[simp] theorem written_literals (d : Draft) (ls : List Line) :
    (d.written ls).literals = d.literals := rfl

@[simp] theorem written_instructions (d : Draft) (ls : List Line) :
    (d.written ls).instructions = d.instructions + Line.breaks ls := rfl

@[simp] theorem written_code_toList (d : Draft) (ls : List Line) :
    (d.written ls).code.toList = d.code.toList ++ ls := by
  simp [written]

@[simp] theorem remarked_code_toList (d : Draft) (text : String) :
    (d.remarked text).code.toList = d.code.toList ++ [.comment text] := by
  simp [remarked]

@[simp] theorem appended_next (d : Draft) (is : List Instruction) :
    (d.appended is).next = d.next := rfl

@[simp] theorem appended_instructions (d : Draft) (is : List Instruction) :
    (d.appended is).instructions = d.instructions + Line.breaks (is.map Line.instruction) := rfl

@[simp] theorem appended_literals (d : Draft) (is : List Instruction) :
    (d.appended is).literals = d.literals := rfl

@[simp] theorem taken_next (d : Draft) (n : Nat) : (d.taken n).next = d.next + n := rfl

@[simp] theorem taken_code (d : Draft) (n : Nat) : (d.taken n).code = d.code := rfl

@[simp] theorem taken_instructions (d : Draft) (n : Nat) :
    (d.taken n).instructions = d.instructions := rfl

@[simp] theorem taken_literals (d : Draft) (n : Nat) : (d.taken n).literals = d.literals := rfl

theorem appended_code_toList (d : Draft) (is : List Instruction) :
    (d.appended is).code.toList = d.code.toList ++ is.map Line.instruction :=
  written_code_toList d _

/-! ### Growing drafts -/

/-- A draft goes on from another one with some instructions. -/
structure Grows (d d' : Draft) (is : List Instruction) : Prop where
  next : d.next ≤ d'.next
  code : d'.code.toList = d.code.toList ++ is.map Line.instruction
  counted : d'.instructions = d.instructions + Line.breaks (is.map Line.instruction)
  literals : d.literals.Grows d'.literals

namespace Grows

theorem refl (d : Draft) : Grows d d [] := ⟨Nat.le_refl _, by simp, by simp, .refl _⟩

theorem trans {d d1 d2 : Draft} {is js : List Instruction} (h : Grows d d1 is)
    (h' : Grows d1 d2 js) : Grows d d2 (is ++ js) :=
  ⟨Nat.le_trans h.next h'.next, by rw [h'.code, h.code, List.map_append, List.append_assoc],
    by rw [h'.counted, h.counted, List.map_append, Line.breaks_append, Nat.add_assoc],
    h.literals.trans h'.literals⟩

theorem taken (d : Draft) (n : Nat) : Grows d (d.taken n) [] :=
  ⟨Nat.le_add_right _ _, by simp, by simp, .refl _⟩

theorem appended (d : Draft) (is : List Instruction) : Grows d (d.appended is) is :=
  ⟨Nat.le_refl _, appended_code_toList d is, rfl, .refl _⟩

theorem usingGlobal {d d1 : Draft} {is : List Instruction} (h : Grows d d1 is) :
    Grows d { d1 with usesGlobal := true } is :=
  ⟨h.next, h.code, h.counted, h.literals⟩

end Grows

/-- A draft goes on from another one with instructions into registers that it took itself. -/
structure Extends (d d' : Draft) (is : List Instruction) : Prop extends Grows d d' is where
  fresh : ∀ i ∈ is, ∃ r, i.dst.place = .temp r ∧ d.next ≤ r ∧ r < d'.next

namespace Extends

theorem refl (d : Draft) : Extends d d [] := ⟨.refl d, by simp⟩

theorem trans {d d1 d2 : Draft} {is js : List Instruction} (h : Extends d d1 is)
    (h' : Extends d1 d2 js) : Extends d d2 (is ++ js) := by
  refine ⟨h.toGrows.trans h'.toGrows, fun i hi => ?_⟩
  have hle := h.next
  have hle' := h'.next
  rcases List.mem_append.mp hi with hi | hi
  · obtain ⟨r, hr, h1, h2⟩ := h.fresh i hi
    exact ⟨r, hr, h1, by omega⟩
  · obtain ⟨r, hr, h1, h2⟩ := h'.fresh i hi
    exact ⟨r, hr, by omega, h2⟩

end Extends

theorem getElem?_registersFrom (t : ValueType) (start : Nat) {n i : Nat} (hi : i < n) :
    (registersFrom t start n)[i]? = some (Operand.ofType (.temp (start + i)) t) := by
  simp [registersFrom, hi]

end Draft

end ShaderIL
