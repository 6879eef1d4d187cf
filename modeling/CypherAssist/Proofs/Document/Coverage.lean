import CypherAssist.Proofs.Document.Links
import CypherAssist.Proofs.Document.Parsed
import CypherAssist.Proofs.Token.Stream

/-! The tree of a document and its text. In whichever way a text was parsed, the tree holds each
visible token once and in order, the closing token last, and nothing else; and the nodes listed
above a place are those that hold it, which the links of the nodes made lead to. -/
namespace CypherAssist

variable {limits : Limits}

namespace Tree
open Token Grammar

/-! ## Tokens of a tree -/

theorem tokensOfAll_append (first second : List Tree) :
    tokensOfAll (first ++ second) = tokensOfAll first ++ tokensOfAll second := by
  induction first with
  | nil => rfl
  | cons tree rest ih => rw [List.cons_append, tokensOfAll, tokensOfAll, ih, List.append_assoc]

theorem tokensOfAll_map_misfit (tokens : List Token) :
    tokensOfAll (tokens.map .misfit) = tokens := by
  induction tokens with
  | nil => rfl
  | cons token rest ih => rw [List.map_cons, tokensOfAll, ih]; rfl

mutual

/-- The trees of a derivation hold the tokens at the positions that it covers. -/
theorem tokensOfAll_ofDerivation (visible : Array Token) :
    ∀ derivation, tokensOfAll (ofDerivation visible derivation) =
      derivation.leaves.filterMap (visible[·]?)
  | .token position => by
    simp only [ofDerivation, Derivation.leaves, List.filterMap_cons, List.filterMap_nil]
    cases visible[position]? <;> rfl
  | .node rule isPartial children => by
    simp only [ofDerivation, tokensOfAll, tokens, List.append_nil, Derivation.leaves]
    exact tokensOfAll_ofDerivations visible children

theorem tokensOfAll_ofDerivations (visible : Array Token) :
    ∀ derivations, tokensOfAll (ofDerivations visible derivations) =
      (Derivation.leavesOfAll derivations).filterMap (visible[·]?)
  | [] => rfl
  | derivation :: rest => by
    rw [ofDerivations, tokensOfAll_append, tokensOfAll_ofDerivation visible derivation,
      tokensOfAll_ofDerivations visible rest, Derivation.leavesOfAll, List.filterMap_append]

end

/-! ## Nodes above a place -/

/-- A tree stands in a root below these nodes, the closest first: each holds the one before it as a
child, and the last is the root. -/
inductive Below (root : Tree) : Tree → List Tree → Prop where
  | root : Below root root []
  | child {holder tree : Tree} (outer : Below root holder above) (member : tree ∈ holder.children) :
    Below root tree (holder :: above)

variable {root : Tree}

mutual

theorem below_of_mem_leavesBelow {place : Token × List Tree} :
    ∀ tree above, Below root tree above → place ∈ leavesBelow above tree →
      ∃ leaf, (leaf = .leaf place.1 ∨ leaf = .misfit place.1) ∧ Below root leaf place.2
  | .leaf token, above, below, member => by
    cases List.mem_singleton.mp member
    exact ⟨_, .inl rfl, below⟩
  | .misfit token, above, below, member => by
    cases List.mem_singleton.mp member
    exact ⟨_, .inr rfl, below⟩
  | .node rule isPartial children, above, below, member =>
    below_of_mem_leavesBelowAll children _ above below (fun _ inside => inside) member

theorem below_of_mem_leavesBelowAll {place : Token × List Tree} :
    ∀ trees holder above, Below root holder above → (∀ tree ∈ trees, tree ∈ holder.children) →
      place ∈ leavesBelowAll (holder :: above) trees →
        ∃ leaf, (leaf = .leaf place.1 ∨ leaf = .misfit place.1) ∧ Below root leaf place.2
  | [], _, _, _, _, member => nomatch member
  | tree :: rest, holder, above, below, inside, member => by
    rcases List.mem_append.mp member with here | later
    · exact below_of_mem_leavesBelow tree (holder :: above)
        (.child below (inside tree (by simp))) here
    · exact below_of_mem_leavesBelowAll rest holder above below
        (fun other among => inside other (List.mem_cons_of_mem _ among)) later

end

mutual

theorem map_leavesBelow : ∀ tree above, (leavesBelow above tree).map Prod.fst = tree.tokens
  | .leaf _, _ => rfl
  | .misfit _, _ => rfl
  | .node _ _ children, _ => map_leavesBelowAll children _

theorem map_leavesBelowAll :
    ∀ trees above, (leavesBelowAll above trees).map Prod.fst = tokensOfAll trees
  | [], _ => rfl
  | tree :: rest, above => by
    rw [leavesBelowAll, List.map_append, map_leavesBelow tree above, map_leavesBelowAll rest above,
      tokensOfAll]

end

mutual

/-- The path to the place where parsing stopped leads from each node to one of its children. -/
theorem below_of_stopPath {last : Tree} {rest : List Tree} :
    ∀ tree above, Below root tree above → tree.stopPath.reverse = last :: rest →
      Below root last (rest ++ above)
  | .leaf _, _, _, path => nomatch path
  | .misfit _, _, _, path => nomatch path
  | .node rule isPartial children, above, below, path => by
    rw [stopPath, List.reverse_cons] at path
    cases inner : (stopPathAmong children).reverse with
    | nil =>
      rw [inner] at path
      cases path
      exact below
    | cons final between =>
      rw [inner] at path
      cases path
      have lower := below_of_stopPathAmong children _ above below (fun _ inside => inside) inner
      simpa using lower

theorem below_of_stopPathAmong {last : Tree} {rest : List Tree} :
    ∀ trees holder above, Below root holder above → (∀ tree ∈ trees, tree ∈ holder.children) →
      (stopPathAmong trees).reverse = last :: rest → Below root last (rest ++ holder :: above)
  | [], _, _, _, _, path => nomatch path
  | tree :: others, holder, above, below, inside, path => by
    rw [stopPathAmong] at path
    split at path
    · exact below_of_stopPathAmong others holder above below
        (fun other among => inside other (List.mem_cons_of_mem _ among)) path
    · split at path
      · exact below_of_stopPath tree (holder :: above) (.child below (inside tree (by simp))) path
      · cases path

end

mutual

theorem exists_below_of_mem_subtrees {part : Tree} :
    ∀ tree above, Below root tree above → part ∈ tree.subtrees → ∃ outer, Below root part outer
  | .leaf _, above, below, member => by
    cases List.mem_singleton.mp member
    exact ⟨above, below⟩
  | .misfit _, above, below, member => by
    cases List.mem_singleton.mp member
    exact ⟨above, below⟩
  | .node rule isPartial children, above, below, member => by
    rcases List.mem_cons.mp member with rfl | inside
    · exact ⟨above, below⟩
    · exact exists_below_of_mem_subtreesOfAll children _ above below (fun _ among => among) inside

theorem exists_below_of_mem_subtreesOfAll {part : Tree} :
    ∀ trees holder above, Below root holder above → (∀ tree ∈ trees, tree ∈ holder.children) →
      part ∈ subtreesOfAll trees → ∃ outer, Below root part outer
  | [], _, _, _, _, member => nomatch member
  | tree :: rest, holder, above, below, inside, member => by
    rcases List.mem_append.mp member with here | later
    · exact exists_below_of_mem_subtrees tree (holder :: above)
        (.child below (inside tree (by simp))) here
    · exact exists_below_of_mem_subtreesOfAll rest holder above below
        (fun other among => inside other (List.mem_cons_of_mem _ among)) later

end

/-- The nodes that hold a place are those met going up along the links from it. -/
theorem exists_climb {nodes : Nodes} {part : Tree} (held : nodes.Holds 0 none 0 root)
    (below : Below root part above) :
    ∃ number numbers, nodes.Carries number part ∧ nodes.Climbs number numbers ∧
      List.Forall₂ nodes.Carries numbers above := by
  induction below with
  | root =>
    obtain ⟨node, made, alone⟩ := Nodes.exists_of_holds held
    exact ⟨0, [], ⟨none, held⟩, .ends made alone, .nil⟩
  | child outer member ih =>
    obtain ⟨number, numbers, ⟨parent?, holds⟩, climbs, carried⟩ := ih
    obtain ⟨below, holds'⟩ := Nodes.exists_of_mem_children holds member
    obtain ⟨node, made, linked⟩ := Nodes.exists_of_holds holds'
    exact ⟨below, number :: numbers, ⟨_, holds'⟩, .up made linked climbs,
      .cons ⟨parent?, holds⟩ carried⟩

/-- The nodes hold the tree, and each child links to the node that holds it. Wherever the tree lists
the nodes above a place, they are those that hold the place, and those met going up from it. -/
structure Linked (nodes : Nodes) (tree : Tree) : Prop where
  held : nodes.Holds 0 none 0 tree
  parents : nodes.Sound
  climbs : ∀ part above, Below tree part above →
    ∃ number numbers, nodes.Carries number part ∧ nodes.Climbs number numbers ∧
      List.Forall₂ nodes.Carries numbers above
  leaves : ∀ place ∈ tree.leavesBelow [], ∃ leaf, (leaf = .leaf place.1 ∨ leaf = .misfit place.1) ∧
    Below tree leaf place.2
  tokens : (tree.leavesBelow []).map Prod.fst = tree.tokens
  stop : Below tree tree.stop.1 tree.stop.2
  children : ∀ node ∈ tree.subtrees, ∀ child ∈ node.children, ∃ above,
    Below tree child (node :: above)

theorem linked {nodes : Nodes} {tree : Tree} (held : nodes.Holds 0 none 0 tree)
    (sound : nodes.Sound) : Linked nodes tree where
  held := held
  parents := sound
  climbs _ _ below := exists_climb held below
  leaves _ member := below_of_mem_leavesBelow tree [] .root member
  tokens := map_leavesBelow tree []
  stop := by
    unfold Tree.stop
    split
    · exact .root
    · rename_i last above path
      simpa using below_of_stopPath tree [] .root path
  children node member child inside := by
    obtain ⟨above, below⟩ := exists_below_of_mem_subtrees tree [] .root member
    exact ⟨above, .child below inside⟩

end Tree

namespace Document
open Token Grammar

theorem filterMap_range (tokens : List Token) (within : count ≤ tokens.length) :
    (List.range count).filterMap (tokens[·]?) = tokens.take count := by
  induction count with
  | zero => rfl
  | succ count ih =>
    rw [List.range_succ, List.filterMap_append, ih (Nat.le_of_succ_le within), List.take_add_one]
    simp [List.getElem?_eq_getElem (Nat.lt_of_succ_le within)]

theorem tokensOfAll_planted {stream : Stream} {children : List Derivation}
    (within : count ≤ stream.visible.length)
    (covered : Derivation.leavesOfAll children = List.range count) :
    Tree.tokensOfAll (Tree.ofDerivations stream.visible.toArray children ++
      (stream.visible.drop count).map .misfit) =
      stream.visible := by
  rw [Tree.tokensOfAll_append, Tree.tokensOfAll_ofDerivations, Tree.tokensOfAll_map_misfit, covered]
  simp only [List.getElem?_toArray]
  rw [filterMap_range _ within, List.take_append_drop]

/-- In each way of parsing all visible tokens are kept. -/
theorem tokens_of_parsed {stream : Stream} {tree : Tree} {issues : List Issue}
    (parsed : Parsed limits stream tree issues) :
    ∃ isPartial children, tree = .node Grammar.start isPartial (children ++ [.leaf stream.last]) ∧
      Tree.tokensOfAll children = stream.visible := by
  have planted (isPartial) (children : List Derivation) (count)
      (within : count ≤ stream.visible.length)
      (covered : Derivation.leavesOfAll children = List.range count) :
      ∃ closed trees, plant stream isPartial children count =
        .node Grammar.start closed (trees ++ [.leaf stream.last]) ∧
        Tree.tokensOfAll trees = stream.visible :=
    ⟨isPartial, _, by rw [plant, ← List.append_assoc], tokensOfAll_planted within covered⟩
  cases parsed with
  | tooDeep => exact planted _ _ _ (Nat.zero_le _) rfl
  | complete _ _ covered => exact planted _ _ _ (Nat.le_refl _) covered
  | unfinished _ _ _ covered => exact planted _ _ _ (Nat.le_refl _) covered
  | misfit _ stops _ _ _ _ covered => exact planted _ _ _ (by simpa using stops.within) covered

/-- Whatever the text, its tree holds the tokens that are neither hidden nor the last, each once and
in order, then the closing token as the last child of the root. The nodes made for it link to those
that hold them, and the text of the tree is that of the visible tokens. -/
theorem parse_covers (text : String) :
    (∃ isPartial children,
      (parse limits text).tree =
        .node Grammar.start isPartial (children ++ [.leaf (parse limits text).stream.last]) ∧
        Tree.tokensOfAll children =
          (parse limits text).stream.toList.filter fun token => !token.isHidden && !token.isEnd) ∧
      (parse limits text).stream.last.isEnd ∧
      Tree.Linked (nodes limits text) (parse limits text).tree ∧
      (parse limits text).tree.text =
        String.join ((parse limits text).stream.visible.map (·.text)) := by
  obtain ⟨issues, parsed, -⟩ := parse_parsed limits text
  obtain ⟨isPartial, children, planted, covered⟩ := tokens_of_parsed parsed
  have visible : (parse limits text).stream.visible =
      (parse limits text).stream.toList.filter fun token => !token.isHidden && !token.isEnd :=
    Stream.visible_ofText text.toList
  have closed : (parse limits text).stream.last.isEnd := Stream.isEnd_last text.toList
  refine ⟨⟨isPartial, children, planted, covered.trans visible⟩, closed,
    Tree.linked (Nodes.holds_assemble ..) (Nodes.sound_assemble _ _ _ _), ?_⟩
  have kept : (parse limits text).stream.visible.filter (fun token => !token.isEnd) =
      (parse limits text).stream.visible := by
    rw [visible, List.filter_filter]
    refine List.filter_congr fun token _ => ?_
    cases token.isEnd <;> simp
  rw [planted, Tree.text, Tree.tokens, Tree.tokensOfAll_append, List.filter_append, covered, kept]
  simp [Tree.tokensOfAll, Tree.tokens, closed]

end Document

end CypherAssist
