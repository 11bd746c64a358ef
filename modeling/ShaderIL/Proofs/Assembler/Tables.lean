import ShaderIL.Assembler.Draft
import ShaderIL.Proofs.Assembler.LiteralTable

/-!
# The tables of a draft

Emission enters what it uses in the tables of a draft: literals, constant buffers, inputs, the global
buffer and the window position. A `Use` is one entry, and `Draft.noteAll` makes a list of them in order.
The literals are the patterns of the uses, each at its first use (`literals_noteAll`). A slot table
lists the slots of the uses in ascending order, each with what its last use declared
(`SlotTable.get?_insertAll_eq_some`).
-/

namespace ShaderIL

/-! ### Slot tables -/

namespace SlotTable

variable {α : Type} {t : SlotTable α} {slot k : Int} {value v : α}

/-- The slots are in ascending order, each listed once. -/
def Ascending (t : SlotTable α) : Prop := t.slots.Pairwise (· < ·)

/-- Declare slots in order. -/
def insertAll (t : SlotTable α) (es : List (Int × α)) : SlotTable α :=
  es.foldl (fun t e => t.insert e.1 e.2) t

theorem mem_map_insertEntry (es : List (Int × α)) :
    k ∈ (insertEntry slot value es).map Prod.fst ↔ k = slot ∨ k ∈ es.map Prod.fst := by
  induction es with
  | nil => simp [insertEntry]
  | cons e es ih =>
    obtain ⟨s, w⟩ := e
    unfold insertEntry
    split_ifs with hlt heq
    · simp
    · subst heq
      simp
    · simp only [List.map_cons, List.mem_cons, ih]
      tauto

theorem mem_slots_insert : k ∈ (t.insert slot value).slots ↔ k = slot ∨ k ∈ t.slots :=
  mem_map_insertEntry t.entries

theorem pairwise_insertEntry {es : List (Int × α)} (h : (es.map Prod.fst).Pairwise (· < ·)) :
    ((insertEntry slot value es).map Prod.fst).Pairwise (· < ·) := by
  induction es with
  | nil => simp [insertEntry]
  | cons e es ih =>
    obtain ⟨s, w⟩ := e
    rw [List.map_cons, List.pairwise_cons] at h
    obtain ⟨hs, hes⟩ := h
    unfold insertEntry
    split_ifs with hlt heq
    · rw [List.map_cons, List.pairwise_cons]
      refine ⟨fun b hb => ?_, List.pairwise_cons.mpr ⟨hs, hes⟩⟩
      rcases List.mem_cons.mp hb with rfl | hb
      · exact hlt
      · have hsb := hs b hb
        simp only at hsb ⊢
        omega
    · subst heq
      exact List.pairwise_cons.mpr ⟨hs, hes⟩
    · rw [List.map_cons, List.pairwise_cons]
      refine ⟨fun b hb => ?_, ih hes⟩
      rcases (mem_map_insertEntry es).mp hb with rfl | hb
      · simp only
        omega
      · exact hs b hb

theorem Ascending.insert (h : t.Ascending) : (t.insert slot value).Ascending :=
  pairwise_insertEntry h

theorem lookup_cons_eq (slot k : Int) (value : α) (es : List (Int × α)) :
    ((slot, value) :: es).lookup k = if k = slot then some value else es.lookup k := by
  rw [List.lookup_cons]
  by_cases hk : k = slot
  · rw [if_pos hk, beq_iff_eq.mpr hk]
  · rw [if_neg hk, beq_eq_false_iff_ne.mpr hk]

theorem lookup_insertEntry (es : List (Int × α)) :
    (insertEntry slot value es).lookup k = if k = slot then some value else es.lookup k := by
  induction es with
  | nil => exact lookup_cons_eq slot k value []
  | cons e es ih =>
    obtain ⟨s, w⟩ := e
    unfold insertEntry
    by_cases hlt : slot < s
    · rw [if_pos hlt, lookup_cons_eq]
    by_cases heq : slot = s
    · rw [if_neg hlt, if_pos heq, lookup_cons_eq, lookup_cons_eq]
      subst heq
      split_ifs <;> rfl
    · rw [if_neg hlt, if_neg heq, lookup_cons_eq, lookup_cons_eq, ih]
      by_cases hk : k = slot
      · rw [if_neg (hk ▸ heq), if_pos hk, if_pos hk]
      · rw [if_neg hk, if_neg hk]

theorem get?_insert (t : SlotTable α) (slot k : Int) (value : α) :
    (t.insert slot value).get? k = if k = slot then some value else t.get? k :=
  lookup_insertEntry t.entries

theorem Ascending.insertAll (h : t.Ascending) (es : List (Int × α)) : (t.insertAll es).Ascending := by
  induction es generalizing t with
  | nil => exact h
  | cons e es ih => exact ih h.insert

theorem insertAll_snoc (t : SlotTable α) (es : List (Int × α)) (e : Int × α) :
    t.insertAll (es ++ [e]) = (t.insertAll es).insert e.1 e.2 := List.foldl_append

theorem mem_slots_insertAll (es : List (Int × α)) :
    k ∈ (({} : SlotTable α).insertAll es).slots ↔ ∃ v, (k, v) ∈ es := by
  induction es using List.reverseRecOn with
  | nil => simp [insertAll, slots]
  | append_singleton es e ih =>
    rw [insertAll_snoc, mem_slots_insert, ih]
    simp only [List.mem_append, List.mem_singleton, exists_or]
    rw [or_comm]
    refine or_congr_right ⟨fun hk => ⟨e.2, by rw [hk]⟩, ?_⟩
    rintro ⟨v, rfl⟩
    rfl

theorem ascending_empty : ({} : SlotTable α).Ascending := List.Pairwise.nil

end SlotTable

/-! ### Uses -/

/-- An entry that emission makes in the tables of a draft. -/
inductive Use where
  | literal (bits : Quad)
  | buffer (slot size : Int)
  | input (slot : Int) (type : ValueType)
  | global
  | position
  deriving DecidableEq

namespace Use

/-- The pattern of a use of a literal. -/
def literal? : Use → Option Quad
  | literal bits => some bits
  | _ => none

/-- The slot and the size of a use of a constant buffer. -/
def buffer? : Use → Option (Int × Int)
  | buffer slot size => some (slot, size)
  | _ => none

/-- The slot and the type of a use of an input. -/
def input? : Use → Option (Int × ValueType)
  | input slot t => some (slot, t)
  | _ => none

theorem mem_filterMap_literal {us : List Use} {bits : Quad} :
    bits ∈ us.filterMap literal? ↔ literal bits ∈ us := by
  rw [List.mem_filterMap]
  constructor
  · rintro ⟨u, hu, hbits⟩
    cases u <;> cases hbits
    exact hu
  · exact fun h => ⟨_, h, rfl⟩

theorem mem_filterMap_buffer {us : List Use} {slot size : Int} :
    (slot, size) ∈ us.filterMap buffer? ↔ buffer slot size ∈ us := by
  rw [List.mem_filterMap]
  constructor
  · rintro ⟨u, hu, hbuffer⟩
    cases u <;> cases hbuffer
    exact hu
  · exact fun h => ⟨_, h, rfl⟩

theorem mem_filterMap_input {us : List Use} {slot : Int} {t : ValueType} :
    (slot, t) ∈ us.filterMap input? ↔ input slot t ∈ us := by
  rw [List.mem_filterMap]
  constructor
  · rintro ⟨u, hu, hinput⟩
    cases u <;> cases hinput
    exact hu
  · exact fun h => ⟨_, h, rfl⟩

end Use

namespace Draft

/-- The draft with a use entered. -/
def note (d : Draft) : Use → Draft
  | .literal bits => { d with literals := d.literals.add bits }
  | .buffer slot size => { d with buffers := d.buffers.insert slot size }
  | .input slot t => { d with inputs := d.inputs.insert slot t }
  | .global => { d with usesGlobal := true }
  | .position => { d with usesPosition := true }

/-- The draft with uses entered in order. -/
def noteAll (d : Draft) (us : List Use) : Draft := us.foldl note d

/-- The draft without its registers and its code. -/
def tables (d : Draft) : Draft := { d with next := 0, code := #[], instructions := 0 }

@[simp] theorem noteAll_nil (d : Draft) : d.noteAll [] = d := rfl

@[simp] theorem noteAll_cons (d : Draft) (u : Use) (us : List Use) :
    d.noteAll (u :: us) = (d.note u).noteAll us := rfl

theorem noteAll_append (d : Draft) (us vs : List Use) :
    d.noteAll (us ++ vs) = (d.noteAll us).noteAll vs := List.foldl_append

theorem tables_note (d : Draft) (u : Use) : (d.note u).tables = d.tables.note u := by
  cases u <;> rfl

theorem useBuffer_eq (slot size : Int) (d : Draft) :
    useBuffer slot size d = .ok ((), d.note (.buffer slot size)) := rfl

theorem useInput_eq (slot : Int) (t : ValueType) (d : Draft) :
    useInput slot t d = .ok ((), d.note (.input slot t)) := rfl

theorem useGlobal_eq (d : Draft) : useGlobal d = .ok ((), d.note .global) := rfl

theorem usePosition_eq (d : Draft) : usePosition d = .ok ((), d.note .position) := rfl

/-! ### What the tables hold -/

theorem buffers_noteAll (d : Draft) (us : List Use) :
    (d.noteAll us).buffers = d.buffers.insertAll (us.filterMap Use.buffer?) := by
  induction us generalizing d with
  | nil => rfl
  | cons u us ih =>
    rw [noteAll_cons, ih]
    cases u <;> rfl

theorem inputs_noteAll (d : Draft) (us : List Use) :
    (d.noteAll us).inputs = d.inputs.insertAll (us.filterMap Use.input?) := by
  induction us generalizing d with
  | nil => rfl
  | cons u us ih =>
    rw [noteAll_cons, ih]
    cases u <;> rfl

theorem usesGlobal_noteAll (d : Draft) (us : List Use) :
    (d.noteAll us).usesGlobal = (d.usesGlobal || decide (.global ∈ us)) := by
  induction us generalizing d with
  | nil => simp
  | cons u us ih =>
    rw [noteAll_cons, ih]
    cases u <;> simp [note]

theorem usesPosition_noteAll (d : Draft) (us : List Use) :
    (d.noteAll us).usesPosition = (d.usesPosition || decide (.position ∈ us)) := by
  induction us generalizing d with
  | nil => simp
  | cons u us ih =>
    rw [noteAll_cons, ih]
    cases u <;> simp [note]

theorem literals_noteAll (d : Draft) (us : List Use) :
    (d.noteAll us).literals = (us.filterMap Use.literal?).foldl LiteralTable.add d.literals := by
  induction us generalizing d with
  | nil => rfl
  | cons u us ih =>
    rw [noteAll_cons, ih]
    cases u <;> rfl

theorem literals_grow_noteAll (d : Draft) (us : List Use) :
    d.literals.Grows (d.noteAll us).literals :=
  ⟨_, d.literals_noteAll us⟩

end Draft

end ShaderIL
