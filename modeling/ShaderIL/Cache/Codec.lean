import ShaderIL.Cache.Store

/-!
# Entries as text

A cache entry is written as a list of texts, each with its length before it, after a line that marks
the file as an entry. `Stored.ofText` reads a file: what is not written in this way is foreign.
-/

namespace ShaderIL

/-- The line that opens an entry. -/
def entryMark : String := "compiled kernel\n"

/-- A text with its length before it. -/
def sizedText (s : String) : String := toString s.length ++ ":" ++ s

/-- The texts of a list of characters, each with its length before it. -/
def sizedTexts? : Nat → List Char → Option (List String)
  | 0, _ => none
  | fuel + 1, cs =>
    if cs.isEmpty then some []
    else
      match (String.ofList (cs.takeWhile Char.isDigit)).toNat?, cs.dropWhile Char.isDigit with
      | some n, ':' :: rest =>
        if rest.length < n then none
        else (sizedTexts? fuel (rest.drop n)).map (String.ofList (rest.take n) :: ·)
      | _, _ => none

/-! ### Bindings -/

/-- The parts of a binding. -/
def Binding.parts (b : Binding) : List String :=
  [toString b.kind.code, b.name, toString b.slot, toString b.type.kind.code,
    toString b.type.components, toString b.size]

/-- The bindings of a list of parts. -/
def bindingsOfParts? : List String → Option (List Binding)
  | [] => some []
  | kind :: name :: slot :: typeKind :: components :: size :: rest => do
    let type : ValueType := ⟨.ofCode (← typeKind.toNat?), ← components.toNat?⟩
    let b : Binding := ⟨.ofCode (← kind.toNat?), name, ← slot.toInt?, type, ← size.toInt?⟩
    return b :: (← bindingsOfParts? rest)
  | _ => none

/-! ### Entries -/

/-- The parts of an entry. -/
def Entry.parts (e : Entry) : List String :=
  [toString e.schema, e.kernel, e.program, toString e.registers, toString e.literals,
    toString e.instructions] ++ e.bindings.flatMap Binding.parts

/-- The text of an entry. -/
def Entry.text (e : Entry) : String := entryMark ++ String.join (e.parts.map sizedText)

/-- The entry of a list of parts. -/
def entryOfParts? : List String → Option Entry
  | schema :: kernel :: program :: registers :: literals :: instructions :: rest => do
    return { schema := ← schema.toNat?, kernel, program, bindings := ← bindingsOfParts? rest,
             registers := ← registers.toNat?, literals := ← literals.toNat?,
             instructions := ← instructions.toNat? }
  | _ => none

/-- The contents of a file with the given text. -/
def Stored.ofText (s : String) : Stored :=
  let cs := s.toList
  let mark := entryMark.toList
  if mark.isPrefixOf cs then
    match (sizedTexts? (cs.length + 1) (cs.drop mark.length)).bind entryOfParts? with
    | some e => .entry e
    | none => .part Stored.openingSize
  else .text s

/-- The text of a file's contents. -/
def Stored.toText : Stored → String
  | entry e => e.text
  | part _ => entryMark
  | text s => s

end ShaderIL
