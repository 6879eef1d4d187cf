import CypherAssist.Proofs.Grammar.Walk

/-! The token under the caret is not looked at. A walk ends in front of it, whatever it is; so it
finds the same candidates, or gives up alike, wherever the tokens before the caret are of the same
kinds and all of them are numbered alike. -/
namespace CypherAssist.Grammar
open Token

/-- Two carets at the same place behind tokens of the same kinds. The tokens under them may differ
in all but their numbers. -/
structure Caret.Twins (one two : Caret) : Prop where
  preferred : one.preferred = two.preferred
  ignored : one.ignored = two.ignored
  indices : one.tokens.toList.map (·.index) = two.tokens.toList.map (·.index)
  before : one.before = two.before

variable {one two : Caret} {grammar : Grammar}

namespace Caret.Twins

theorem size (twins : one.Twins two) : one.tokens.size = two.tokens.size := by
  simpa using congrArg List.length twins.indices

theorem position (twins : one.Twins two) : one.position = two.position :=
  congrArg (· - 1) twins.size

theorem prefers (twins : one.Twins two) (rule : Rule) : one.prefers rule = two.prefers rule := by
  rw [Caret.prefers, Caret.prefers, twins.preferred]

theorem ruleAt (twins : one.Twins two) (rule : Rule) (place : Nat) (stack : List Frame) :
    one.ruleAt rule place stack = two.ruleAt rule place stack := by
  have numbered := congrArg (·[place]?) twins.indices
  simp only [List.getElem?_map, Array.getElem?_toList] at numbered
  have shown (caret : Caret) : (caret.tokens[place]?.map fun token => (token.index : Int)) =
      (caret.tokens[place]?.map (·.index)).map Int.ofNat := by
    rw [Option.map_map]
    rfl
  rw [Caret.ruleAt, Caret.ruleAt, shown, shown, numbered]

/-- Away from the caret both find the same kinds. -/
theorem kind (twins : one.Twins two) {place : Nat} (elsewhere : place ≠ one.position) :
    one.tokens[place]?.map (·.kind) = two.tokens[place]?.map (·.kind) := by
  by_cases earlier : place < one.position
  · rw [← one.getElem?_before earlier, ← two.getElem?_before (twins.position ▸ earlier),
      twins.before]
  · have beyond : one.tokens.size ≤ place := by
      unfold Caret.position at elsewhere earlier
      omega
    rw [Array.getElem?_eq_none beyond, Array.getElem?_eq_none (twins.size ▸ beyond)]

theorem report (twins : one.Twins two) (state : WalkState) (kind : Kind) (stack : List Frame)
    (follow : List Element) :
    state.report one kind stack follow = state.report two kind stack follow := by
  simp only [WalkState.report, twins.prefers, twins.ruleAt, twins.ignored]

end Caret.Twins

/-- An element is walked alike from both carets. -/
theorem walk_twins (twins : one.Twins two)
    (descend : Rule → Nat → List Frame → WalkM (List Nat)) (element : Element) (position : Nat)
    (stack : List Frame) (follow : List Element) :
    element.walk one descend position stack follow =
      element.walk two descend position stack follow := by
  induction element using Element.induction generalizing position follow with
  | token kind =>
    rw [Element.walk, Element.walk, ← twins.position]
    split
    · simp only [twins.report]
    · rename_i elsewhere
      rw [twins.kind elsewhere]
  | reference => rw [Element.walk, Element.walk]
  | sequence items ih =>
    rw [Element.walk, Element.walk]
    generalize [position] = positions
    induction items generalizing positions with
    | nil => rw [Element.walkInOrder, Element.walkInOrder]
    | cons item rest others =>
      have first (start : Nat) := ih item (by simp) start (rest ++ follow)
      have onward := others fun other member => ih other (List.mem_cons_of_mem _ member)
      simp only [Element.walkInOrder, first, onward]
  | choice options ih =>
    rw [Element.walk, Element.walk]
    generalize ([] : List Nat) = reached
    induction options generalizing reached with
    | nil => rw [Element.walkAny, Element.walkAny]
    | cons option rest others =>
      have first := ih option (by simp) position follow
      have onward := others fun other member => ih other (List.mem_cons_of_mem _ member)
      simp only [Element.walkAny, first, onward]
  | optional item ih => rw [Element.walk, Element.walk, ih]
  | repeated item ih =>
    rw [Element.walk, Element.walk, twins.size]
    simp only [ih]

/-- A rule is walked alike from both carets, to whatever depth. -/
theorem walkRule_twins (twins : one.Twins two) (depth : Nat) :
    walkRule grammar one depth = walkRule grammar two depth := by
  induction depth with
  | zero => rfl
  | succ depth ih =>
    funext rule position stack
    simp only [walkRule, twins.position, twins.prefers, twins.ruleAt, ih, walk_twins twins]

/-- The candidates do not depend on the token under the caret. -/
theorem collect_twins {start : Rule} {stream other : List Token} {index : Nat}
    {preferred : List Rule} {ignored : List Kind} {depth : Nat}
    (twins : (Caret.mk (tokensUntil index stream).toArray preferred ignored).Twins
      (Caret.mk (tokensUntil index other).toArray preferred ignored)) :
    collect grammar start stream index preferred ignored depth =
      collect grammar start other index preferred ignored depth := by
  have visible : (tokensUntil index stream).isEmpty = (tokensUntil index other).isEmpty := by
    rw [Bool.eq_iff_iff, List.isEmpty_iff_length_eq_zero, List.isEmpty_iff_length_eq_zero,
      ← List.size_toArray, ← List.size_toArray, twins.size]
  simp only [collect, walkRule_twins twins, visible]

end CypherAssist.Grammar
