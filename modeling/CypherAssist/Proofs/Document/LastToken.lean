import CypherAssist.Proofs.Document.Highlighting
import CypherAssist.Proofs.Document.Stop
import Mathlib.Data.List.Nodup

/-! The place where parsing stopped and the last token. Text that breaks off leaves nodes behind it
that hold nothing, on any level and as many as there are rules open. The way down passes them over:
where it ends, the last visible token hangs, and a token that has no place in the grammar hangs off
the root. -/
namespace CypherAssist

variable {limits : Limits}

namespace Tree
open Token Grammar

variable {root tree : Tree} {above : List Tree} {token : Token}

/-! ## Leaves and the nodes above them -/

/-- A leaf or a misfit that holds the token. -/
def Carries (leaf : Tree) (token : Token) : Prop := leaf = .leaf token ∨ leaf = .misfit token

theorem leavesBelowAll_append (first second : List Tree) :
    leavesBelowAll above (first ++ second) =
      leavesBelowAll above first ++ leavesBelowAll above second := by
  induction first with
  | nil => rfl
  | cons tree rest ih =>
    rw [List.cons_append, leavesBelowAll, leavesBelowAll, ih, List.append_assoc]

theorem leavesBelow_subset {trees : List Tree} (member : tree ∈ trees) :
    leavesBelow above tree ⊆ leavesBelowAll above trees := by
  induction trees with
  | nil => cases member
  | cons first rest ih =>
    rw [leavesBelowAll]
    rcases List.mem_cons.mp member with rfl | later
    · exact List.subset_append_left ..
    · exact List.subset_append_of_subset_right _ (ih later)

/-- What is listed of a part is listed of the whole. -/
theorem leavesBelow_of_below (below : Below root tree above) :
    leavesBelow above tree ⊆ leavesBelow [] root := by
  induction below with
  | root => exact List.Subset.refl _
  | @child above holder tree outer member ih =>
    refine List.Subset.trans ?_ ih
    cases holder with
    | leaf | misfit => cases member
    | node rule isPartial children => exact leavesBelow_subset member

/-- A leaf that stands below some nodes is listed with them. -/
theorem mem_leavesBelow_of_below {leaf : Tree} (carries : leaf.Carries token)
    (below : Below root leaf above) : (token, above) ∈ leavesBelow [] root := by
  refine leavesBelow_of_below below ?_
  rcases carries with rfl | rfl <;> exact List.mem_singleton_self _

/-- A token that a tree holds once stands in one place. -/
theorem above_eq_of_nodup (unique : root.tokens.Nodup) {one other : List Tree}
    (first : (token, one) ∈ leavesBelow [] root) (second : (token, other) ∈ leavesBelow [] root) :
    one = other := by
  rw [← map_leavesBelow root []] at unique
  exact congrArg Prod.snd (List.inj_on_of_nodup_map unique first second rfl)

/-! ## The way to the last token -/

/-- Where no token closes the stream, a tree covers text exactly if it holds a token. -/
theorem coversText_iff (free : ∀ token ∈ tree.tokens, token.isEnd = false) :
    tree.coversText ↔ tree.tokens ≠ [] := by
  cases tree with
  | leaf token | misfit token => simp [coversText, tokens, free token (List.mem_singleton_self _)]
  | node => simp [coversText, isEmpty]

theorem any_coversText_iff {trees : List Tree}
    (free : ∀ token ∈ tokensOfAll trees, token.isEnd = false) :
    trees.any coversText ↔ tokensOfAll trees ≠ [] := by
  induction trees with
  | nil => simp [tokensOfAll]
  | cons first rest ih =>
    obtain ⟨here, later⟩ := List.forall_mem_append.mp free
    rw [List.any_cons, Bool.or_eq_true, coversText_iff here, ih later, tokensOfAll, Ne, Ne, Ne,
      List.append_eq_nil_iff, not_and_or]

mutual

/-- The way down from a tree ends above its last token. -/
theorem mem_leavesBelow_stopPath : ∀ (tree : Tree) (above : List Tree),
    (∀ token ∈ tree.tokens, token.isEnd = false) → tree.tokens.getLast? = some token →
      (token, tree.stopPath.reverse ++ above) ∈ leavesBelow above tree
  | .leaf _, above, _, last => by
    cases last
    exact List.mem_singleton_self _
  | .misfit _, above, _, last => by
    cases last
    exact List.mem_singleton_self _
  | .node rule isPartial children, above, free, last => by
    rw [stopPath, List.reverse_cons, List.append_assoc, List.singleton_append]
    exact mem_leavesBelow_stopPathAmong children _ free last

theorem mem_leavesBelow_stopPathAmong : ∀ (trees above : List Tree),
    (∀ token ∈ tokensOfAll trees, token.isEnd = false) →
      (tokensOfAll trees).getLast? = some token →
        (token, (stopPathAmong trees).reverse ++ above) ∈ leavesBelowAll above trees
  | [], _, _, last => nomatch last
  | tree :: rest, above, free, last => by
    obtain ⟨here, later⟩ := List.forall_mem_append.mp free
    rw [stopPathAmong, leavesBelowAll]
    rw [tokensOfAll, List.getLast?_append] at last
    by_cases some : tokensOfAll rest = []
    · -- What comes behind is empty, so the last token is in this tree.
      rw [some, List.getLast?_nil, Option.none_or] at last
      have covers : tree.coversText := by
        rw [coversText_iff here]
        intro none
        rw [none] at last
        cases last
      rw [if_neg (by simp [any_coversText_iff later, some]), if_pos covers]
      exact List.mem_append_left _ (mem_leavesBelow_stopPath tree above here last)
    · rw [if_pos ((any_coversText_iff later).mpr some)]
      obtain ⟨final, found⟩ := Option.isSome_iff_exists.mp (List.getLast?_isSome.mpr some)
      rw [found, Option.some_or] at last
      cases last
      exact List.mem_append_right _ (mem_leavesBelow_stopPathAmong rest above later found)

end

/-- The place where parsing stopped in a root, with the nodes above it. -/
theorem stop_of_root (rule : Rule) (isPartial : Bool) (children : List Tree) :
    (Tree.node rule isPartial children).stop.1 :: (Tree.node rule isPartial children).stop.2 =
      (stopPathAmong children).reverse ++ [.node rule isPartial children] := by
  rw [stop, stopPath, List.reverse_cons]
  cases (stopPathAmong children).reverse <;> rfl

/-! ## Misfits -/

/-- No misfit is anywhere in the tree. -/
inductive Fitting : Tree → Prop where
  | leaf {token : Token} : Fitting (.leaf token)
  | node {rule : Rule} {isPartial : Bool} {children : List Tree}
    (inside : ∀ child ∈ children, Fitting child) : Fitting (.node rule isPartial children)

mutual

/-- The trees of a derivation have no misfits. -/
theorem fitting_ofDerivation (visible : Array Token) : ∀ derivation,
    ∀ tree ∈ ofDerivation visible derivation, tree.Fitting
  | .token position => by
    intro tree member
    obtain ⟨token, -, rfl⟩ := Option.map_eq_some_iff.mp (Option.mem_toList.mp member)
    exact .leaf
  | .node rule isPartial children => by
    intro tree member
    cases List.mem_singleton.mp member
    exact .node (fitting_ofDerivations visible children)

theorem fitting_ofDerivations (visible : Array Token) : ∀ derivations,
    ∀ tree ∈ ofDerivations visible derivations, tree.Fitting
  | [], _, member => nomatch member
  | derivation :: rest, tree, member => by
    rcases List.mem_append.mp member with here | later
    · exact fitting_ofDerivation visible derivation tree here
    · exact fitting_ofDerivations visible rest tree later

end

/-- Where each child of a root is a misfit or has none, a misfit is a child of the root. -/
theorem above_of_misfit {rule : Rule} {isPartial : Bool} {children : List Tree}
    (planted : ∀ child ∈ children, (∃ token, child = .misfit token) ∨ child.Fitting)
    (below : Below (.node rule isPartial children) (.misfit token) above) :
    above = [.node rule isPartial children] := by
  have places {tree above} (below : Below (.node rule isPartial children) tree above) :
      above = [] ∧ tree = .node rule isPartial children ∨
        above = [.node rule isPartial children] ∧ (∃ token, tree = .misfit token) ∨
          tree.Fitting := by
    induction below with
    | root => exact .inl ⟨rfl, rfl⟩
    | child outer member ih =>
      rcases ih with ⟨rfl, rfl⟩ | ⟨-, token, rfl⟩ | fitting
      · exact .inr ((planted _ member).imp_left fun misfit => ⟨rfl, misfit⟩)
      · cases member
      · cases fitting with
        | leaf => cases member
        | node inside => exact .inr (.inr (inside _ member))
  rcases places below with ⟨-, same⟩ | ⟨same, -⟩ | fitting
  · cases same
  · exact same
  · cases fitting

end Tree

namespace Document
open Token Grammar CypherAssist.Tree

/-! ## Documents -/

/-- In whichever way a text is parsed, misfits hang off the root. -/
theorem exists_plant_of_parsed {stream : Stream} {tree : Tree} {issues : List Issue}
    (parsed : Parsed limits stream tree issues) :
    ∃ isPartial children count, tree = plant stream isPartial children count := by
  cases parsed <;> exact ⟨_, _, _, rfl⟩

theorem above_of_parsed_misfit {text : String} {token : Token} {above : List Tree}
    (below : Below (parse limits text).tree (.misfit token) above) :
    above = [(parse limits text).tree] := by
  obtain ⟨issues, parsed, -⟩ := parse_parsed limits text
  obtain ⟨isPartial, children, count, planted⟩ := exists_plant_of_parsed parsed
  rw [planted] at below ⊢
  refine above_of_misfit ?_ below
  intro child member
  rcases List.mem_append.mp member with derived | behind
  · exact .inr (fitting_ofDerivations _ children child derived)
  · rcases List.mem_append.mp behind with misfit | last
    · obtain ⟨token, -, rfl⟩ := List.mem_map.mp misfit
      exact .inl ⟨token, rfl⟩
    · cases List.mem_singleton.mp last
      exact .inr .leaf

/-- No token is twice in a stream. -/
theorem nodup_ofText (chars : List Char) : (Stream.ofText chars).toList.Nodup := by
  have numbered : (Stream.ofText chars).toList.map (·.index) =
      List.range' 0 ((Stream.ofText chars).body.length + 1) := by
    have last := (Stream.last_readFrom_place {} 0 chars).1
    rw [Stream.toList, List.map_append, Stream.index_body, List.map_singleton, Stream.ofText, last,
      List.range'_concat]
    simp
  exact List.Nodup.of_map (·.index) (numbered ▸ List.nodup_range')

/-- The tokens typed in a text: neither hidden nor the closing one. -/
def typedTokens (text : String) : List Token :=
  (Stream.ofText text.toList).toList.filter fun token => !token.isHidden && !token.isEnd

/-- The root holds the tokens typed in front of the closing one, and the way down from it leads
through the trees that hold them. -/
theorem stop_of_parse (limits : Limits) (text : String) : ∃ children,
    (parse limits text).tree.children = children ++ [.leaf (parse limits text).stream.last] ∧
      tokensOfAll children = typedTokens text ∧
      (parse limits text).tree.stop.1 :: (parse limits text).tree.stop.2 =
        (stopPathAmong children).reverse ++ [(parse limits text).tree] := by
  obtain ⟨issues, parsed, -⟩ := parse_parsed limits text
  obtain ⟨isPartial, children, shape, covered⟩ := tokens_of_parsed parsed
  have ends : stopPathAmong (children ++ [.leaf (parse limits text).stream.last]) =
      stopPathAmong children := stopPathAmong_append_bare children (not_coversText_last text)
  have root := stop_of_root Grammar.start isPartial
      (children ++ [.leaf (parse limits text).stream.last])
  rw [ends, ← shape] at root
  exact ⟨children, by rw [shape, Tree.children], covered.trans (Stream.visible_ofText text.toList),
    root⟩

/-- The last token typed is listed with the place where parsing stopped. -/
theorem listed_of_getLast? {text : String} {token : Token}
    (last : (typedTokens text).getLast? = some token) :
    (token, (parse limits text).tree.stop.1 :: (parse limits text).tree.stop.2) ∈
      leavesBelow [] (parse limits text).tree := by
  obtain ⟨children, shape, covered, place⟩ := stop_of_parse limits text
  have free : ∀ token ∈ tokensOfAll children, token.isEnd = false := by
    intro token member
    rw [covered] at member
    have kept := (List.mem_filter.mp member).2
    rw [Bool.and_eq_true, Bool.not_eq_true', Bool.not_eq_true'] at kept
    exact kept.2
  have way := mem_leavesBelow_stopPathAmong children [(parse limits text).tree] free
      (covered ▸ last)
  rw [place]
  cases root : (parse limits text).tree with
  | leaf | misfit => simp [root, Tree.children] at shape
  | node rule isPartial parts =>
    rw [root] at shape way
    rw [leavesBelow, show parts = _ from shape, leavesBelowAll_append]
    exact List.mem_append_left _ (shape ▸ way)

/-- For every text, parsing stopped in the node that holds the last token typed, and in the root
where none is. That token stands in one place only; where it is a misfit, the place is the root. -/
theorem stop_holds_last (text : String) :
    (typedTokens text = [] → (parse limits text).tree.stop = ((parse limits text).tree, [])) ∧
    ∀ token, (typedTokens text).getLast? = some token →
      (∃ leaf, Carries leaf token ∧
        Below (parse limits text).tree leaf
          ((parse limits text).tree.stop.1 :: (parse limits text).tree.stop.2)) ∧
      ∀ leaf above, Carries leaf token → Below (parse limits text).tree leaf above →
        above = (parse limits text).tree.stop.1 :: (parse limits text).tree.stop.2 ∧
          (leaf = .misfit token →
            (parse limits text).tree.stop = ((parse limits text).tree, [])) := by
  refine ⟨?_, ?_⟩
  · intro none
    obtain ⟨children, -, covered, place⟩ := stop_of_parse limits text
    rw [none] at covered
    rw [stopPathAmong_bare (any_coversText_of_tokensOfAll covered)] at place
    exact Prod.ext (List.cons.inj place).1 (List.cons.inj place).2
  · intro token last
    have listed := @listed_of_getLast? limits _ _ last
    refine ⟨below_of_mem_leavesBelow _ [] .root listed, ?_⟩
    intro leaf above carries below
    have unique : (parse limits text).tree.tokens.Nodup := by
      rw [Highlight.tokens_parse]
      exact (nodup_ofText text.toList).filter _
    have same := above_eq_of_nodup unique (mem_leavesBelow_of_below carries below) listed
    refine ⟨same, ?_⟩
    rintro rfl
    have root := (above_of_parsed_misfit below).symm.trans same
    exact Prod.ext (List.cons.inj root).1.symm (List.cons.inj root).2.symm

/-- A call that breaks off behind the dot of its name has the name still to come, and parsing
stopped in the node that holds the dot. -/
theorem call_stops_at_dot : ∃ token leaf, (typedTokens "CALL db. ").getLast? = some token ∧
    token.lexeme = ['.'] ∧ Carries leaf token ∧ Below (parse ⟨3000, 3000⟩ "CALL db. ").tree leaf
      ((parse ⟨3000, 3000⟩ "CALL db. ").tree.stop.1 ::
        (parse ⟨3000, 3000⟩ "CALL db. ").tree.stop.2) := by
  obtain ⟨token, last, dot⟩ : ∃ token, (typedTokens "CALL db. ").getLast? = some token ∧
      token.lexeme = ['.'] := by
    have read : ((Stream.ofText "CALL db. ".toList).toList.filter fun token =>
        !token.isHidden && !token.isEnd).getLast? = some ⟨.symbol .dot, ['.'], ⟨7, 1, 7⟩, 3⟩ := by
      decide +kernel
    exact ⟨_, read, rfl⟩
  obtain ⟨leaf, carries, below⟩ := ((stop_holds_last "CALL db. ").2 token last).1
  exact ⟨token, leaf, last, dot, carries, below⟩

end Document

end CypherAssist
