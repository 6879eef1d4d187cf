import CypherAssist.Proofs.Document.Coverage
import CypherAssist.Proofs.Grammar.LastStatement
import CypherAssist.Proofs.Token.Relocation

/-! Where parsing stopped. The way down to that place leads through the last statement only, and a
statement has the same tree wherever it stands; so behind closed statements parsing stops in the
same place as in the rest of the text alone. -/
namespace CypherAssist

variable {limits : Limits}

namespace Tree
open Token Grammar

/-! ## Trees of a text read elsewhere -/

mutual

/-- The same tree over the tokens of a text that is read elsewhere. -/
def relocate (base : Cursor) (first : Nat) : Tree → Tree
  | .leaf token => .leaf (token.relocate base first)
  | .misfit token => .misfit (token.relocate base first)
  | .node rule isPartial children => .node rule isPartial (relocateAll base first children)

/-- Several trees relocated in turn. -/
def relocateAll (base : Cursor) (first : Nat) : List Tree → List Tree
  | [] => []
  | tree :: rest => tree.relocate base first :: relocateAll base first rest

end

variable {base : Cursor} {first : Nat}

theorem relocateAll_eq_map (trees : List Tree) :
    relocateAll base first trees = trees.map (relocate base first) := by
  induction trees with
  | nil => rfl
  | cons tree rest ih => simp [relocateAll, ih]

theorem rule?_relocate (tree : Tree) : (tree.relocate base first).rule? = tree.rule? := by
  cases tree <;> rfl

mutual

theorem tokens_relocate :
    ∀ tree : Tree, (tree.relocate base first).tokens = tree.tokens.map (Token.relocate base first)
  | .leaf _ => rfl
  | .misfit _ => rfl
  | .node _ _ children => tokensOfAll_relocate children

theorem tokensOfAll_relocate : ∀ trees, tokensOfAll (relocateAll base first trees) =
    (tokensOfAll trees).map (Token.relocate base first)
  | [] => rfl
  | tree :: rest => by
    rw [relocateAll, tokensOfAll, tokensOfAll, List.map_append, tokens_relocate tree,
      tokensOfAll_relocate rest]

end

theorem text_relocate (tree : Tree) : (tree.relocate base first).text = tree.text := by
  simp only [text, tokens_relocate, List.filter_map, List.map_map]
  rfl

theorem coversText_relocate (tree : Tree) :
    (tree.relocate base first).coversText = tree.coversText := by
  cases tree with
  | leaf | misfit => rfl
  | node rule isPartial children =>
    have same := @tokens_relocate base first (.node rule isPartial children)
    simp only [relocate] at same
    simp [relocate, coversText, isEmpty, same]

theorem any_coversText_relocateAll (trees : List Tree) :
    (relocateAll base first trees).any coversText = trees.any coversText := by
  induction trees with
  | nil => rfl
  | cons tree rest ih => simp [relocateAll, coversText_relocate, ih]

mutual

theorem stopPath_relocate :
    ∀ tree : Tree, (tree.relocate base first).stopPath = relocateAll base first tree.stopPath
  | .leaf _ => rfl
  | .misfit _ => rfl
  | .node rule isPartial children => by
    rw [relocate, stopPath, stopPath, stopPathAmong_relocate children, relocateAll, relocate]

theorem stopPathAmong_relocate : ∀ trees, stopPathAmong (relocateAll base first trees) =
    relocateAll base first (stopPathAmong trees)
  | [] => rfl
  | tree :: rest => by
    rw [relocateAll, stopPathAmong, stopPathAmong, any_coversText_relocateAll, coversText_relocate,
      stopPath_relocate tree, stopPathAmong_relocate rest]
    split
    · rfl
    · split <;> rfl

end

mutual

/-- A derivation that is shifted behind other tokens has the same trees. -/
theorem ofDerivation_shift (front visible : List Token) : ∀ derivation,
    ofDerivation (front ++ visible.map (Token.relocate base first)).toArray
        (derivation.shift front.length) =
      relocateAll base first (ofDerivation visible.toArray derivation)
  | .token position => by
    rw [Derivation.shift, ofDerivation, ofDerivation]
    simp only [List.getElem?_toArray, List.getElem?_append_right (Nat.le_add_right ..),
      Nat.add_sub_cancel_left, List.getElem?_map, Option.map_map]
    cases visible[position]? <;> rfl
  | .node rule isPartial children => by
    rw [Derivation.shift, ofDerivation, ofDerivation, ofDerivations_shift front visible children]
    rfl

theorem ofDerivations_shift (front visible : List Token) : ∀ derivations,
    ofDerivations (front ++ visible.map (Token.relocate base first)).toArray
        (Derivation.shiftAll front.length derivations) =
      relocateAll base first (ofDerivations visible.toArray derivations)
  | [] => rfl
  | derivation :: rest => by
    rw [Derivation.shiftAll, ofDerivations, ofDerivations, relocateAll_eq_map, List.map_append,
      ofDerivation_shift front visible derivation, ofDerivations_shift front visible rest,
      relocateAll_eq_map, relocateAll_eq_map]

end

mutual

/-- A derivation over the first of the tokens has the same trees whatever comes behind them. -/
theorem ofDerivation_of_leaves (visible behind : List Token) : ∀ derivation : Derivation,
    (∀ position ∈ derivation.leaves, position < visible.length) →
    ofDerivation (visible ++ behind).toArray derivation = ofDerivation visible.toArray derivation
  | .token position, within => by
    have inside := within position (List.mem_singleton_self _)
    simp [ofDerivation, List.getElem?_append_left inside]
  | .node _ _ children, within => by
    rw [ofDerivation, ofDerivation, ofDerivations_of_leaves visible behind children within]

theorem ofDerivations_of_leaves (visible behind : List Token) : ∀ derivations,
    (∀ position ∈ Derivation.leavesOfAll derivations, position < visible.length) →
    ofDerivations (visible ++ behind).toArray derivations =
      ofDerivations visible.toArray derivations
  | [], _ => rfl
  | derivation :: rest, within => by
    obtain ⟨here, later⟩ := List.forall_mem_append.mp within
    rw [ofDerivations, ofDerivations, ofDerivation_of_leaves visible behind derivation here,
      ofDerivations_of_leaves visible behind rest later]

end

theorem ofDerivations_append (visible : Array Token) (one two : List Derivation) :
    ofDerivations visible (one ++ two) =
      ofDerivations visible one ++ ofDerivations visible two := by
  induction one with
  | nil => rfl
  | cons derivation rest ih => simp [ofDerivations, ih]

/-! ## The way to the place where parsing stopped -/

/-- The way leads into the last tree that covers text. -/
theorem stopPathAmong_append {last : Tree} {tail : List Tree} (front : List Tree)
    (covers : last.coversText) (bare : tail.any coversText = false) :
    stopPathAmong (front ++ last :: tail) = last.stopPath := by
  induction front with
  | nil => simp [stopPathAmong, bare, covers]
  | cons tree rest ih =>
    have later : (rest ++ last :: tail).any coversText := by simp [covers]
    rw [List.cons_append, stopPathAmong, if_pos later, ih]

/-- The way ends where no tree covers text. -/
theorem stopPathAmong_bare {trees : List Tree} (bare : trees.any coversText = false) :
    stopPathAmong trees = [] := by
  induction trees with
  | nil => rfl
  | cons tree rest ih =>
    simp only [List.any_cons, Bool.or_eq_false_iff] at bare
    simp [stopPathAmong, bare]

theorem coversText_of_tokens {tree : Tree} (tokens : tree.tokens = []) :
    tree.coversText = false := by
  cases tree with
  | leaf | misfit => cases tokens
  | node => simp [coversText, isEmpty, tokens]

theorem any_coversText_of_tokensOfAll {trees : List Tree} (none : tokensOfAll trees = []) :
    trees.any coversText = false := by
  induction trees with
  | nil => rfl
  | cons tree rest ih =>
    obtain ⟨here, later⟩ := List.append_eq_nil_iff.mp none
    rw [List.any_cons, coversText_of_tokens here, ih later, Bool.or_false]

theorem stop_node (rule : Rule) (isPartial : Bool) (children : List Tree) :
    (Tree.node rule isPartial children).stop.2 =
      ((Tree.node rule isPartial children) :: stopPathAmong children).reverse.tail := by
  rw [stop, stopPath]
  cases (node rule isPartial children :: stopPathAmong children).reverse <;> rfl

/-- Nothing is above the place where the way ends in the root. -/
theorem stop_root {rule : Rule} {isPartial : Bool} {children : List Tree}
    (ends : stopPathAmong children = []) : (Tree.node rule isPartial children).stop.2 = [] := by
  rw [stop_node, ends]
  rfl

/-! ## What is asked of the place -/

/-- Two nodes that answer alike: they carry one rule and have one text, unless they are roots. -/
def Alike (one two : Tree) : Prop :=
  one.rule? = two.rule? ∧ (one.rule? ≠ some Grammar.start → one.text = two.text)

theorem alike_relocate (tree : Tree) : Alike (tree.relocate base first) tree :=
  ⟨rule?_relocate tree, fun _ => text_relocate tree⟩

theorem alike_root (partialOne partialTwo : Bool) (childrenOne childrenTwo : List Tree) :
    Alike (.node Grammar.start partialOne childrenOne)
      (.node Grammar.start partialTwo childrenTwo) :=
  ⟨rfl, fun other => absurd rfl other⟩

theorem hasRule_of_alike {one two : Tree} (alike : Alike one two) (rules : List Rule) :
    one.hasRule rules = two.hasRule rules := by
  rw [hasRule, hasRule, alike.1]

variable {one two : List Tree}

/-- The closest node with one of the rules is found above both places, or above neither. -/
theorem enclosing?_alike (alike : List.Forall₂ Alike one two) {rules : List Rule}
    (inner : Grammar.start ∉ rules) :
    Option.Rel (fun one two => one.1.text = two.1.text ∧ List.Forall₂ Alike one.2 two.2)
      (enclosing? rules one) (enclosing? rules two) := by
  induction alike with
  | nil => exact .none
  | @cons tree other rest others same alike ih =>
    have rule := hasRule_of_alike same rules
    by_cases here : other.hasRule rules
    · have apart : tree.rule? ≠ some Grammar.start := by
        intro root
        rw [hasRule, ← same.1, root] at here
        exact inner (List.contains_iff_mem.mp here)
      simpa [enclosing?, rule, here] using Option.Rel.some ⟨same.2 apart, alike⟩
    · simpa [enclosing?, rule, here] using ih

theorem isSome_of_rel {α β : Type} {related : α → β → Prop} {one : Option α} {two : Option β}
    (rel : Option.Rel related one two) : one.isSome = two.isSome := by
  cases rel <;> rfl

theorem inRelationshipType_alike (alike : List.Forall₂ Alike one two) :
    inRelationshipType one = inRelationshipType two := by
  have label := enclosing?_alike alike (show Grammar.start ∉ [Rule.labelExpression4] by decide)
  unfold inRelationshipType
  generalize enclosing? [.labelExpression4] one = here, enclosing? [.labelExpression4] two = there
    at label
  cases label with
  | none => rfl
  | some outer => exact isSome_of_rel (enclosing?_alike outer.2 (by decide))

theorem inProcedureName_alike (alike : List.Forall₂ Alike one two) :
    inProcedureName one = inProcedureName two :=
  isSome_of_rel (enclosing?_alike alike (by decide))

theorem parentExpression?_alike (alike : List.Forall₂ Alike one two) :
    (parentExpression? one).map text = (parentExpression? two).map text := by
  have expression := enclosing?_alike alike (show Grammar.start ∉ [Rule.expression2] by decide)
  unfold parentExpression?
  generalize enclosing? [.expression2] one = here, enclosing? [.expression2] two = there
    at expression
  cases expression with
  | none => rfl
  | some same => exact congrArg some same.1

end Tree

namespace Document
open Token Grammar Outcomes CypherAssist.Tree

variable {text : String} {found : Outcomes Derivation} {state : ParserState}

/-- The tree of a beginning of a document is that of a derivation of the whole of it. -/
theorem tree_of_viable
    (ran : derive limits (parse limits text).stream.visible.toArray = .ok (found, state))
    (viable : Viable cypher Grammar.start (visibleKinds (parse limits text).stream)) :
    ∃ isPartial children,
      (whole (visibleKinds (parse limits text).stream), .node Grammar.start isPartial children) ∈
        reading cypher (visibleKinds (parse limits text).stream) Grammar.start 0 ∧
      (parse limits text).tree = plant (parse limits text).stream isPartial children
        (parse limits text).stream.visible.length := by
  obtain ⟨stream, streamEq⟩ : ∃ stream, stream = Stream.ofText text.toList := ⟨_, rfl⟩
  have same : (parse limits text).stream = stream := streamEq.symm
  have kinds : kindsOf stream.visible.toArray = visibleKinds stream := by simp [kindsOf]
  rw [same] at ran viable ⊢
  have word := word_iff_reaches ran
  have begins := viable_iff_reaches ran
  have read := (derive_exact ran).1
  rw [kinds] at word begins read
  rw [← read]
  simp only [parse, result, ← streamEq, ran]
  cases ended : found.at? (.upTo stream.visible.toArray.size) with
  | some derivation =>
    obtain ⟨children, rfl, -⟩ := node_of_derive ran ended
    have member := mem_of_at? ended
    have document := word.mpr (reaches_iff.mpr ⟨_, member⟩)
    refine ⟨_, children, ?_, rfl⟩
    rw [whole, if_pos document, List.length_map]
    simpa using member
  | none =>
    have incomplete := fun document => at?_eq_none_iff.mp ended (word.mp document)
    cases broken : found.at? .cut with
    | some derivation =>
      obtain ⟨children, rfl, -⟩ := node_of_derive ran broken
      refine ⟨_, children, ?_, rfl⟩
      rw [whole, if_neg incomplete]
      exact mem_of_at? broken
    | none =>
      exact absurd (begins.mp viable)
        (not_or.mpr ⟨at?_eq_none_iff.mp ended, at?_eq_none_iff.mp broken⟩)

theorem isEnd_of_visible {token : Token} (member : token ∈ (Stream.ofText text.toList).visible) :
    token.isEnd = false := by
  have body : token ∈ (Stream.ofText text.toList).body := (List.mem_filter.mp member).1
  exact Stream.isEnd_of_mem_body body

/-- The closing token is not counted as text. -/
theorem not_coversText_last (text : String) :
    ([.leaf (parse limits text).stream.last] : List Tree).any coversText = false := by
  have ends : (parse limits text).stream.last.isEnd := Stream.isEnd_last text.toList
  simp [coversText, ends]

/-- Where statements are all closed, or there is none, nothing below the root is left open. -/
private theorem stop_of_viable
    (ran : derive limits (parse limits text).stream.visible.toArray = .ok (found, state))
    (viable : Viable cypher Grammar.start (visibleKinds (parse limits text).stream))
    (closed : visibleKinds (parse limits text).stream = [] ∨
      (visibleKinds (parse limits text).stream).getLast? = some separator) :
    (parse limits text).tree.stop.2 = [] := by
  obtain ⟨isPartial, children, member, tree⟩ := tree_of_viable ran viable
  rw [tree, plant, List.drop_length, List.map_nil, List.nil_append]
  rcases closed with none | last
  · refine stop_root (stopPathAmong_bare ?_)
    have nothing : (parse limits text).stream.visible = [] := List.map_eq_nil_iff.mp none
    rw [List.any_append, not_coversText_last, Bool.or_false, nothing]
    refine any_coversText_of_tokensOfAll ?_
    rw [tokensOfAll_ofDerivations]
    simp
  · obtain ⟨front, place, rfl, inside⟩ := separator_of_reading last member
    rw [List.length_map] at inside
    have shown : (parse limits text).stream.visible[place].isEnd = false :=
      isEnd_of_visible (List.getElem_mem inside)
    refine stop_root ?_
    rw [ofDerivations_append, List.append_assoc]
    simp only [ofDerivations, ofDerivation, List.getElem?_toArray,
      List.getElem?_eq_getElem inside, Option.map_some, Option.toList_some, List.append_nil,
      List.singleton_append]
    exact stopPathAmong_append _ (by simp [coversText, shown]) (not_coversText_last text)

/-- Behind the last misfit there is nothing below the root. -/
private theorem stopPathAmong_misfits {front : List Tree} {tokens : List Token} (some : tokens ≠ [])
    (visible : ∀ token ∈ tokens, token ∈ (Stream.ofText text.toList).visible) :
    stopPathAmong
      (front ++ (tokens.map .misfit ++ [.leaf (parse limits text).stream.last])) = [] := by
  obtain ⟨others, last, split⟩ := (List.eq_nil_or_concat _).resolve_left some
  rw [List.concat_eq_append] at split
  have shown : last.isEnd = false := isEnd_of_visible (visible last (by simp [split]))
  rw [split, List.map_append, List.append_assoc, ← List.append_assoc]
  exact stopPathAmong_append _ (by simp [coversText, shown]) (not_coversText_last text)

/-- Misfits hang off the root. -/
private theorem stop_of_misfit
    (ran : derive limits (parse limits text).stream.visible.toArray = .ok (found, state))
    (unviable : ¬ Viable cypher Grammar.start (visibleKinds (parse limits text).stream)) :
    (parse limits text).tree.stop.2 = [] := by
  obtain ⟨issues, parsed, -⟩ := parse_parsed limits text
  generalize shape : (parse limits text).tree = tree at parsed
  cases parsed with
  | tooDeep gaveUp => simp [gaveUp] at ran
  | complete _ document => exact absurd (viable_of_word document) unviable
  | unfinished _ begins => exact absurd begins unviable
  | @misfit found state count token seen later isPartial children _ stops offending =>
    have inside := (List.getElem?_eq_some_iff.mp offending).1
    have some : (parse limits text).stream.visible.drop count ≠ [] := by simpa using inside
    exact stop_root (stopPathAmong_misfits some fun token => List.mem_of_mem_drop)

/-- A text that is nested too deeply is all misfits. -/
theorem stop_of_tooDeep {obstacle : Obstacle}
    (gaveUp : derive limits (parse limits text).stream.visible.toArray = .error obstacle) :
    (parse limits text).tree.stop.2 = [] := by
  have shape : (parse limits text).tree = .node Grammar.start true ([] ++
      ((parse limits text).stream.visible.map .misfit ++
        [.leaf (parse limits text).stream.last])) := by
    have gave : derive limits (Stream.ofText text.toList).visible.toArray =
        .error obstacle := gaveUp
    simp [parse, result, gave, assemble, root, Tree.append]
  rw [shape]
  refine stop_root ?_
  by_cases some : (parse limits text).stream.visible = []
  · rw [some]
    exact stopPathAmong_bare (not_coversText_last text)
  · exact stopPathAmong_misfits some fun _ member => member

/-- Where no statement is open at the end of the text, parsing stopped at the root. -/
theorem stop_of_closed
    (ran : derive limits (parse limits text).stream.visible.toArray = .ok (found, state))
    (closed : visibleKinds (parse limits text).stream = [] ∨
      (visibleKinds (parse limits text).stream).getLast? = some separator ∨
      ¬ Viable cypher Grammar.start (visibleKinds (parse limits text).stream)) :
    (parse limits text).tree.stop.2 = [] := by
  rcases closed with none | last | unviable
  · exact stop_of_viable ran (none ▸ viable_nil) (.inl none)
  · by_cases viable : Viable cypher Grammar.start (visibleKinds (parse limits text).stream)
    · exact stop_of_viable ran viable (.inr last)
    · exact stop_of_misfit ran viable
  · exact stop_of_misfit ran unviable

/-- A statement that is derived from a place inside the text has one tree, and that covers text. -/
theorem tree_of_statement {last : Derivation} {place : Nat}
    (read : (whole (visibleKinds (parse limits text).stream), last) ∈
      reading cypher (visibleKinds (parse limits text).stream) .statement place)
    (inside : place < (visibleKinds (parse limits text).stream).length) :
    ∃ statement, ofDerivation (parse limits text).stream.visible.toArray last = [statement] ∧
      statement.coversText := by
  have derives := reading_sound cypher _ _ _ _ _ read
  obtain ⟨-, -, covered⟩ := leaves_of_derives derives (Nat.le_of_lt inside)
  have atEnd : (whole (visibleKinds (parse limits text).stream)).stop
      (visibleKinds (parse limits text).stream).length =
      (parse limits text).stream.visible.length := by
    unfold whole
    split <;> simp [Reach.stop]
  have tokens : tokensOfAll
      (ofDerivation (parse limits text).stream.visible.toArray last) ≠ [] := by
    have leaves : last.leaves = Derivation.leavesOfAll [last] := (List.append_nil _).symm
    rw [List.length_map] at inside
    rw [tokensOfAll_ofDerivation, leaves, covered, atEnd]
    have first : place ∈ List.range' place ((parse limits text).stream.visible.length - place) :=
      List.mem_range'_1.mpr ⟨Nat.le_refl _, by omega⟩
    have here : (parse limits text).stream.visible.toArray[place]? =
        some (parse limits text).stream.visible[place] := by simp [inside]
    exact List.ne_nil_of_mem (List.mem_filterMap.mpr ⟨place, first, here⟩)
  cases derives with
  | reference defined body =>
    refine ⟨_, rfl, ?_⟩
    simpa [ofDerivation, tokensOfAll, coversText, isEmpty] using tokens

/-- Where a statement is open at the end of the text, parsing stopped in the tree of the last. -/
theorem stop_of_open
    (ran : derive limits (parse limits text).stream.visible.toArray = .ok (found, state))
    (viable : Viable cypher Grammar.start (visibleKinds (parse limits text).stream))
    (begun : visibleKinds (parse limits text).stream ≠ [])
    (inside : (visibleKinds (parse limits text).stream).getLast? ≠ some separator) :
    ∃ isPartial children place last statement,
      (whole (visibleKinds (parse limits text).stream), last) ∈
        reading cypher (visibleKinds (parse limits text).stream) .statement place ∧
      Opening (visibleKinds (parse limits text).stream) place ∧
      ofDerivation (parse limits text).stream.visible.toArray last = [statement] ∧
      (parse limits text).tree.stop.2 =
        (Tree.node Grammar.start isPartial children :: statement.stopPath).reverse.tail := by
  obtain ⟨isPartial, children, member, tree⟩ := tree_of_viable ran viable
  obtain ⟨front, place, last, rfl, read, opening, within⟩ := last_of_reading begun inside member
  obtain ⟨statement, shape, covers⟩ := tree_of_statement read within
  refine ⟨isPartial, ofDerivations (parse limits text).stream.visible.toArray front ++
    statement :: [.leaf (parse limits text).stream.last], place, last, statement, read, opening,
    shape, ?_⟩
  rw [tree, plant, stop_node, List.drop_length, List.map_nil, List.nil_append, ofDerivations_append,
    ofDerivations, ofDerivations, shape, List.append_nil, List.append_assoc, List.singleton_append,
    stopPathAmong_append _ covers (not_coversText_last text)]

/-! ## Documents of the same visible tokens -/

/-- The tree of a document is made up of its visible tokens, but for the closing one. -/
theorem exists_tree_of_visible (visible : List Token) : ∃ rule isPartial children, ∀ text,
    (parse limits text).stream.visible = visible →
      (parse limits text).tree =
        .node rule isPartial (children ++ [.leaf (parse limits text).stream.last]) := by
  have assembled (derivation? : Option Derivation) (consumed : Nat) :
      ∃ rule isPartial children, ∀ stream : Stream,
        assemble stream visible.toArray derivation? consumed =
          .node rule isPartial (children ++ [.leaf stream.last]) := by
    cases derivation? with
    | none => exact ⟨_, _, _, fun stream => rfl⟩
    | some derivation =>
      cases derivation with
      | token position => exact ⟨_, _, _, fun stream => rfl⟩
      | node rule isPartial children =>
        exact ⟨rule, isPartial, _, fun stream => (congrArg _ (List.append_assoc ..)).symm⟩
  -- Which derivation is taken is told by the visible tokens alone.
  obtain ⟨derivation?, consumed, taken⟩ : ∃ derivation? consumed, ∀ stream : Stream,
      stream.visible = visible → (result limits stream).derivation? = derivation? ∧
        (result limits stream).consumed = consumed := by
    cases ran : derive limits visible.toArray with
    | error => exact ⟨none, 0, fun stream same => by simp [result, same, ran]⟩
    | ok outcome =>
      obtain ⟨found, state⟩ := outcome
      cases ended : found.at? (.upTo visible.toArray.size) with
      | some derivation =>
        exact ⟨some derivation, visible.toArray.size, fun stream same => by
          simp only [result, same, ran, ended, and_self]⟩
      | none =>
        cases broken : found.at? .cut with
        | some derivation =>
          exact ⟨some derivation, visible.toArray.size, fun stream same => by
            simp only [result, same, ran, ended, broken, and_self]⟩
        | none =>
          exact ⟨deriveBefore limits visible.toArray (min state.farthest visible.toArray.size),
            min state.farthest visible.toArray.size, fun stream same => by
              simp only [result, same, ran, ended, broken, and_self]⟩
  obtain ⟨rule, isPartial, children, built⟩ := assembled derivation? consumed
  refine ⟨rule, isPartial, children, fun text same => ?_⟩
  obtain ⟨derivation, count⟩ := taken (Stream.ofText text.toList) same
  simp only [parse] at same ⊢
  rw [same, derivation, count, built]

/-- Trees that cover no text lead nowhere. -/
theorem stopPathAmong_append_bare {tail : List Tree} (front : List Tree)
    (bare : tail.any coversText = false) :
    stopPathAmong (front ++ tail) = stopPathAmong front := by
  induction front with
  | nil => exact stopPathAmong_bare bare
  | cons tree rest ih => simp [stopPathAmong, bare, ih]

/-- Where parsing stopped does not depend on the hidden tokens. -/
theorem stop_alike {one two : String}
    (same : (parse limits one).stream.visible = (parse limits two).stream.visible) :
    List.Forall₂ Alike (parse limits one).tree.stop.2 (parse limits two).tree.stop.2 := by
  obtain ⟨rule, isPartial, children, built⟩ :=
    exists_tree_of_visible (parse limits one).stream.visible
  have shown (text : String) : (Tree.node rule isPartial
      (children ++ [.leaf (parse limits text).stream.last])).text =
        (Tree.node rule isPartial children).text := by
    have ends : (parse limits text).stream.last.isEnd := Stream.isEnd_last text.toList
    simp [Tree.text, tokens, tokensOfAll_append, tokensOfAll, ends]
  have roots : Alike (.node rule isPartial (children ++ [.leaf (parse limits one).stream.last]))
      (.node rule isPartial (children ++ [.leaf (parse limits two).stream.last])) :=
    ⟨rfl, fun _ => (shown one).trans (shown two).symm⟩
  have path : List.Forall₂ Alike (stopPathAmong children) (stopPathAmong children) :=
    List.forall₂_same.mpr fun tree _ => ⟨rfl, fun _ => rfl⟩
  rw [built one rfl, built two same.symm, stop_node, stop_node,
    stopPathAmong_append_bare _ (not_coversText_last one),
    stopPathAmong_append_bare _ (not_coversText_last two), ← List.drop_one, ← List.drop_one]
  exact List.forall₂_drop 1 (List.forall₂_reverse_iff.mpr (.cons roots path))

/-! ## Behind closed statements -/

/-- A valid text that ends with a semicolon is read to its end and closes all of its statements. -/
theorem terminated_of_valid {before : String} (valid : (parse limits before).issues = [])
    (closing : (parse limits before).stream.body.getLast?.map (·.kind) = some separator) :
    (parse limits before).stream.unterminated? = none ∧
      Terminated (visibleKinds (parse limits before).stream) ∧
      visibleKinds (parse limits before).stream ≠ [] := by
  obtain ⟨last, ends, semicolon⟩ := Option.map_eq_some_iff.mp closing
  obtain ⟨front, split⟩ := List.getLast?_eq_some_iff.mp ends
  have shown : last.isHidden = false := by
    rw [isHidden, semicolon]
    rfl
  have visible : (visibleKinds (parse limits before).stream).getLast? = some separator := by
    simp [visibleKinds, Stream.visible, split, shown, semicolon]
  have some : visibleKinds (parse limits before).stream ≠ [] := by
    intro none
    rw [none] at visible
    cases visible
  obtain ⟨whole, document⟩ := document_of_valid valid fun none => some (by simp [none])
  exact ⟨whole, terminated_of_script (script_iff.mp document) visible, some⟩

variable {before after : String}

/-- Behind such a text the visible tokens are followed by those of the rest. -/
theorem visible_append (valid : (parse limits before).issues = [])
    (closing : (parse limits before).stream.body.getLast?.map (·.kind) = some separator) :
    (parse limits (before ++ after)).stream.visible = (parse limits before).stream.visible ++
      (parse limits after).stream.visible.map (Token.relocate (Cursor.after {} before.toList)
        (parse limits before).stream.body.length) := by
  have onward := Stream.ofText_append (terminated_of_valid valid closing).1 closing after.toList
  have text : (before ++ after).toList = before.toList ++ after.toList := String.toList_append ..
  simp only [parse, text] at onward ⊢
  rw [onward]
  simp [Stream.visible, Stream.prepend, Stream.relocate, List.filter_map, Function.comp_def]

/-- Behind a valid text that ends with a semicolon, the nodes above the place where parsing stopped
are those in the rest of the text alone. -/
theorem stop_append (valid : (parse limits before).issues = [])
    (closing : (parse limits before).stream.body.getLast?.map (·.kind) = some separator)
    (ran : derive limits (parse limits (before ++ after)).stream.visible.toArray =
      .ok (found, state))
    (alone : derive limits (parse limits after).stream.visible.toArray = .ok (seen, later)) :
    List.Forall₂ Alike (parse limits (before ++ after)).tree.stop.2
      (parse limits after).tree.stop.2 := by
  obtain ⟨-, terminated, begun⟩ := terminated_of_valid valid closing
  have visible := @visible_append limits before after valid closing
  have kinds : visibleKinds (parse limits (before ++ after)).stream =
      visibleKinds (parse limits before).stream ++ visibleKinds (parse limits after).stream := by
    simp [visibleKinds, visible]
  have separated := getLast?_of_terminated terminated begun
  by_cases closed : visibleKinds (parse limits after).stream = [] ∨
      (visibleKinds (parse limits after).stream).getLast? = some separator ∨
      ¬ Viable cypher Grammar.start (visibleKinds (parse limits after).stream)
  · rw [stop_of_closed alone closed, stop_of_closed ran]
    · exact .nil
    · rw [kinds]
      rcases closed with none | last | misfit
      · exact .inr (.inl (by rwa [none, List.append_nil]))
      · exact .inr (.inl (by simp [List.getLast?_append, last]))
      · refine .inr (.inr fun viable => misfit ?_)
        refine (viable_append_terminated_iff terminated fun none => misfit ?_).mp viable
        exact none ▸ viable_nil
  · obtain ⟨some, inside, viable⟩ : visibleKinds (parse limits after).stream ≠ [] ∧
        (visibleKinds (parse limits after).stream).getLast? ≠ some separator ∧
        Viable cypher Grammar.start (visibleKinds (parse limits after).stream) := by
      simpa only [not_or, Classical.not_not] using closed
    obtain ⟨_, _, place, last, statement, read, opening, shape, above⟩ :=
      stop_of_open alone viable some inside
    obtain ⟨_, _, there, other, _, also, openingThere, shapeThere, aboveThere⟩ :=
      stop_of_open ran (by rwa [kinds, viable_append_terminated_iff terminated some])
        (by simp [kinds, some]) (by
          obtain ⟨front, kind, split⟩ := (List.eq_nil_or_concat _).resolve_left some
          simpa [kinds, split, List.getLast?_append] using inside)
    rw [kinds] at also openingThere
    rw [last_append terminated some opening openingThere read also, visible, List.length_map,
      ofDerivation_shift, shape] at shapeThere
    obtain rfl := List.singleton_inj.mp shapeThere
    rw [aboveThere, above, stopPath_relocate, relocateAll_eq_map, ← List.drop_one, ← List.drop_one]
    have path : List.Forall₂ Alike (statement.stopPath.map (relocate (Cursor.after {} before.toList)
        (parse limits before).stream.body.length)) statement.stopPath :=
      List.forall₂_map_left_iff.mpr (List.forall₂_same.mpr fun tree _ => alike_relocate tree)
    exact List.forall₂_drop 1 (List.forall₂_reverse_iff.mpr (.cons (alike_root ..) path))

end Document

end CypherAssist
