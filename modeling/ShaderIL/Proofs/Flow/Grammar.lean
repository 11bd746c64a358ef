import Mathlib.Tactic
import ShaderIL.Assembler.Basic

/-!
# Structured flow

The flow keywords of a unit form a word. `Structured` is the grammar of the words that can stand in a
program: blocks are closed by their own keyword, an `if` has at most one `else`, and a jump stands
inside a loop, at any depth of branches. `Keyword.next` says what a keyword does to the blocks that
are open, `blocksAfter` what a word does to them.

* `structured_iff`: a word is structured exactly if it leaves no block open. From right to left the
  word is cut at the keywords that close the blocks open before it (`Closes`).
* `viable_iff`: a word is the beginning of a structured one exactly if each of its keywords can stand
  where it does, as whatever is open can be closed.
-/

namespace ShaderIL

/-- A flow keyword, alone on its line or with a condition. -/
inductive Keyword where
  | word (w : FlowWord)
  | test (t : FlowTest)
  deriving DecidableEq, Repr

namespace Keyword

/-- The keyword leaves a loop or goes to its next round. -/
def isJump : Keyword → Bool
  | word .breakLoop | word .continueLoop | test .breakTrue => true
  | _ => false

/-- The open blocks after a keyword, innermost first; none if it cannot stand there. -/
def next : Keyword → List Block → Option (List Block)
  | word .whileLoop, flow => some (.loop :: flow)
  | word .endLoop, .loop :: rest => some rest
  | test .ifTrue, flow => some (.ifBranch :: flow)
  | word .elseBranch, .ifBranch :: rest => some (.elseBranch :: rest)
  | word .endIf, .ifBranch :: rest => some rest
  | word .endIf, .elseBranch :: rest => some rest
  | word .breakLoop, flow | word .continueLoop, flow | test .breakTrue, flow =>
    if flow.contains .loop then some flow else none
  | _, _ => none

theorem next_of_isJump {k : Keyword} (hk : k.isJump = true) (flow : List Block) :
    k.next flow = if flow.contains .loop then some flow else none := by
  cases k with
  | word w =>
    cases w with
    | breakLoop | continueLoop => rfl
    | _ => cases hk
  | test t =>
    cases t with
    | breakTrue => rfl
    | ifTrue => cases hk

theorem next_endLoop_eq_none {flow : List Block} (h : ∀ rest, flow ≠ .loop :: rest) :
    (word .endLoop).next flow = none := by
  rcases flow with _ | ⟨_ | _ | _, rest⟩
  case cons.loop => exact absurd rfl (h rest)
  all_goals rfl

theorem next_elseBranch_eq_none {flow : List Block} (h : ∀ rest, flow ≠ .ifBranch :: rest) :
    (word .elseBranch).next flow = none := by
  rcases flow with _ | ⟨_ | _ | _, rest⟩
  case cons.ifBranch => exact absurd rfl (h rest)
  all_goals rfl

theorem next_endIf_eq_none {flow : List Block} (hif : ∀ rest, flow ≠ .ifBranch :: rest)
    (helse : ∀ rest, flow ≠ .elseBranch :: rest) : (word .endIf).next flow = none := by
  rcases flow with _ | ⟨_ | _ | _, rest⟩
  case cons.ifBranch => exact absurd rfl (hif rest)
  case cons.elseBranch => exact absurd rfl (helse rest)
  all_goals rfl

end Keyword

/-- The words of flow keywords that can stand in a program, inside a loop or not. -/
inductive Structured : Bool → List Keyword → Prop
  | empty {inLoop} : Structured inLoop []
  | seq {inLoop u v} (hu : Structured inLoop u) (hv : Structured inLoop v) :
    Structured inLoop (u ++ v)
  | loop {inLoop u} (hu : Structured true u) :
    Structured inLoop (.word .whileLoop :: u ++ [.word .endLoop])
  | branch {inLoop u} (hu : Structured inLoop u) :
    Structured inLoop (.test .ifTrue :: u ++ [.word .endIf])
  | branches {inLoop u v} (hu : Structured inLoop u) (hv : Structured inLoop v) :
    Structured inLoop (.test .ifTrue :: u ++ .word .elseBranch :: v ++ [.word .endIf])
  | jump {k : Keyword} (hk : k.isJump = true) : Structured true [k]

/-- The word is the beginning of one that can stand in a program. -/
def Viable (w : List Keyword) : Prop := ∃ v, Structured false (w ++ v)

/-- The open blocks after a word. -/
def blocksAfter (flow : List Block) : List Keyword → Option (List Block)
  | [] => some flow
  | k :: w => (k.next flow).bind fun flow => blocksAfter flow w

theorem blocksAfter_append (u v : List Keyword) : ∀ flow : List Block,
    blocksAfter flow (u ++ v) = (blocksAfter flow u).bind fun flow => blocksAfter flow v := by
  induction u with
  | nil => intro flow; rfl
  | cons k u ih =>
    intro flow
    simp only [List.cons_append, blocksAfter, Option.bind_assoc]
    exact congrArg _ (funext ih)

/-! ### Structured words leave the open blocks as they are -/

theorem Structured.blocksAfter_eq {inLoop : Bool} {w : List Keyword} (h : Structured inLoop w) :
    ∀ flow : List Block, (inLoop = true → flow.contains .loop = true) →
      blocksAfter flow w = some flow := by
  induction h with
  | empty => intro flow _; rfl
  | seq hu hv ihu ihv =>
    intro flow hflow
    rw [blocksAfter_append, ihu flow hflow]
    exact ihv flow hflow
  | loop hu ih =>
    intro flow _
    have hopen : (Keyword.word .whileLoop).next flow = some (.loop :: flow) := rfl
    rw [List.cons_append, blocksAfter, hopen, Option.bind_some, blocksAfter_append,
      ih (.loop :: flow) (fun _ => by simp)]
    rfl
  | branch hu ih =>
    intro flow hflow
    have hopen : (Keyword.test .ifTrue).next flow = some (.ifBranch :: flow) := rfl
    rw [List.cons_append, blocksAfter, hopen, Option.bind_some, blocksAfter_append,
      ih (.ifBranch :: flow) (fun h => by simpa using hflow h)]
    rfl
  | @branches inLoop u v hu hv ihu ihv =>
    intro flow hflow
    have hopen : (Keyword.test .ifTrue).next flow = some (.ifBranch :: flow) := rfl
    have helse : (Keyword.word .elseBranch).next (.ifBranch :: flow) = some (.elseBranch :: flow) := rfl
    rw [List.append_assoc, List.cons_append, blocksAfter, hopen, Option.bind_some,
      blocksAfter_append, ihu (.ifBranch :: flow) (fun h => by simpa using hflow h),
      Option.bind_some, List.cons_append, blocksAfter, helse, Option.bind_some, blocksAfter_append,
      ihv (.elseBranch :: flow) (fun h => by simpa using hflow h)]
    rfl
  | jump hk =>
    intro flow hflow
    rw [blocksAfter, Keyword.next_of_isJump hk, if_pos (hflow rfl)]
    rfl

/-! ### Words that close what is open are structured -/

/-- The word closes the open blocks one after the other, with structured words in between. -/
def Closes : List Block → List Keyword → Prop
  | [], w => Structured false w
  | .loop :: flow, w => ∃ u v, w = u ++ .word .endLoop :: v ∧ Structured true u ∧ Closes flow v
  | .elseBranch :: flow, w => ∃ u v, w = u ++ .word .endIf :: v ∧
      Structured (flow.contains .loop) u ∧ Closes flow v
  | .ifBranch :: flow, w => ∃ u v, Structured (flow.contains .loop) u ∧ Closes flow v ∧
      (w = u ++ .word .endIf :: v ∨ ∃ u', Structured (flow.contains .loop) u' ∧
        w = u ++ .word .elseBranch :: u' ++ .word .endIf :: v)

/-- A structured word in front goes into the innermost block. -/
theorem Closes.prepend {flow : List Block} {u w : List Keyword} (h : Closes flow w)
    (hu : Structured (flow.contains .loop) u) : Closes flow (u ++ w) := by
  cases flow with
  | nil => exact .seq hu h
  | cons b flow =>
    cases b with
    | loop =>
      obtain ⟨u', v, rfl, hu', hv⟩ := h
      exact ⟨u ++ u', v, by simp, .seq (by simpa using hu) hu', hv⟩
    | elseBranch =>
      obtain ⟨u', v, rfl, hu', hv⟩ := h
      exact ⟨u ++ u', v, by simp, .seq (by simpa using hu) hu', hv⟩
    | ifBranch =>
      obtain ⟨u', v, hu', hv, hw⟩ := h
      refine ⟨u ++ u', v, .seq (by simpa using hu) hu', hv, ?_⟩
      rcases hw with rfl | ⟨x, hx, rfl⟩
      · exact .inl (by simp)
      · exact .inr ⟨x, hx, by simp⟩

/-- A keyword in front of a word that closes what the keyword leaves open. -/
theorem Closes.cons {flow flow' : List Block} {k : Keyword} {w : List Keyword}
    (hk : k.next flow = some flow') (h : Closes flow' w) : Closes flow (k :: w) := by
  have hjump : k.isJump = true → Closes flow (k :: w) := by
    intro hj
    rw [Keyword.next_of_isJump hj] at hk
    split_ifs at hk with hloop
    cases hk
    exact h.prepend (u := [k]) (by rw [hloop]; exact .jump hj)
  cases k with
  | word word =>
    cases word with
    | breakLoop | continueLoop => exact hjump rfl
    | whileLoop =>
      cases hk
      obtain ⟨u, v, rfl, hu, hv⟩ := h
      simpa using hv.prepend (.loop hu)
    | endLoop =>
      cases flow with
      | nil => cases hk
      | cons b flow =>
        cases b <;> cases hk
        exact ⟨[], w, rfl, .empty, h⟩
    | elseBranch =>
      cases flow with
      | nil => cases hk
      | cons b flow =>
        cases b <;> cases hk
        obtain ⟨u, v, rfl, hu, hv⟩ := h
        exact ⟨[], v, .empty, hv, .inr ⟨u, hu, rfl⟩⟩
    | endIf =>
      cases flow with
      | nil => cases hk
      | cons b flow =>
        cases b <;> cases hk
        · exact ⟨[], w, .empty, h, .inl rfl⟩
        · exact ⟨[], w, rfl, .empty, h⟩
  | test t =>
    cases t with
    | breakTrue => exact hjump rfl
    | ifTrue =>
      cases hk
      obtain ⟨u, v, hu, hv, rfl | ⟨u', hu', rfl⟩⟩ := h
      · simpa using hv.prepend (.branch hu)
      · simpa using hv.prepend (.branches hu hu')

theorem closes_of_blocksAfter {w : List Keyword} : ∀ {flow : List Block},
    blocksAfter flow w = some [] → Closes flow w := by
  induction w with
  | nil =>
    intro flow h
    cases h
    exact Structured.empty
  | cons k w ih =>
    intro flow h
    obtain ⟨flow', hk, hw⟩ := Option.bind_eq_some_iff.mp h
    exact (ih hw).cons hk

theorem structured_iff {w : List Keyword} : Structured false w ↔ blocksAfter [] w = some [] :=
  ⟨fun h => h.blocksAfter_eq [] (by simp), closes_of_blocksAfter⟩

/-! ### Beginnings of structured words -/

/-- The keyword that closes a block. -/
def Block.closer : Block → Keyword
  | loop => .word .endLoop
  | ifBranch | elseBranch => .word .endIf

theorem blocksAfter_closers : ∀ flow : List Block, blocksAfter flow (flow.map Block.closer) = some []
  | [] => rfl
  | b :: flow => by
    have hclose : b.closer.next (b :: flow) = some flow := by cases b <;> rfl
    rw [List.map_cons, blocksAfter, hclose]
    exact blocksAfter_closers flow

/-- A word begins a structured one exactly if its keywords can stand where they do. -/
theorem viable_iff {w : List Keyword} : Viable w ↔ ∃ flow, blocksAfter [] w = some flow := by
  constructor
  · rintro ⟨v, hv⟩
    rw [structured_iff, blocksAfter_append] at hv
    obtain ⟨flow, hflow, -⟩ := Option.bind_eq_some_iff.mp hv
    exact ⟨flow, hflow⟩
  · rintro ⟨flow, hflow⟩
    refine ⟨flow.map Block.closer, structured_iff.mpr ?_⟩
    rw [blocksAfter_append, hflow]
    exact blocksAfter_closers flow

end ShaderIL
