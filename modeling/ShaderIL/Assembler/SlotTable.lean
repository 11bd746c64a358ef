/-!
# Resource slots in ascending order

A `SlotTable` maps slot numbers to what is declared there and lists them in ascending order. A later
declaration of a slot replaces the earlier one.
-/

namespace ShaderIL

/-- Declarations by slot, in ascending order. -/
structure SlotTable (α : Type) where
  entries : List (Int × α) := []

namespace SlotTable

variable {α : Type}

/-- Put an entry at its place in an ascending list. -/
def insertEntry (slot : Int) (value : α) : List (Int × α) → List (Int × α)
  | [] => [(slot, value)]
  | (s, v) :: rest =>
    if slot < s then (slot, value) :: (s, v) :: rest
    else if slot = s then (slot, value) :: rest
    else (s, v) :: insertEntry slot value rest

/-- Declare a slot. -/
def insert (t : SlotTable α) (slot : Int) (value : α) : SlotTable α :=
  ⟨insertEntry slot value t.entries⟩

/-- The declaration of a slot. -/
def get? (t : SlotTable α) (slot : Int) : Option α := t.entries.lookup slot

/-- The declared slots. -/
def slots (t : SlotTable α) : List Int := t.entries.map Prod.fst

end SlotTable

end ShaderIL
