import CypherAssist.Document.Links
import CypherAssist.Document.Navigation

/-! The links of the nodes of a tree. However a document is parsed, the nodes made for it hold its
tree, and each child links to the node that holds it; so going up along the links from a node leads
through the nodes that hold it, and ends at the root. -/
namespace CypherAssist
open Token Grammar

/-! ## Nodes that hold a tree -/

mutual

/-- A node holds a tree, and links to this parent: it has the label of the tree, and its children
hold the children of the tree in order and link to it. No node among them is older than `first`. -/
def Nodes.Holds (nodes : Nodes) (first : Nat) (parent? : Option Nat) (number : Nat) : Tree → Prop
  | .leaf token => first ≤ number ∧ nodes[number]? = some ⟨.leaf token, parent?, []⟩
  | .misfit token => first ≤ number ∧ nodes[number]? = some ⟨.misfit token, parent?, []⟩
  | .node rule isPartial children => first ≤ number ∧ ∃ numbers,
      nodes[number]? = some ⟨.node rule isPartial, parent?, numbers⟩ ∧
        nodes.HoldAll first number numbers children

/-- Nodes that link to one parent hold trees, in the same order. -/
def Nodes.HoldAll (nodes : Nodes) (first holder : Nat) : List Nat → List Tree → Prop
  | [], [] => True
  | number :: numbers, tree :: trees =>
    nodes.Holds first (some holder) number tree ∧ nodes.HoldAll first holder numbers trees
  | [], _ :: _ | _ :: _, [] => False

end

variable {nodes before middle after : Nodes} {first later holder number child : Nat}
  {parent? : Option Nat} {label : Label} {numbers more : List Nat} {trees others : List Tree}

namespace Nodes

mutual

/-- Nodes hold what they held as long as those from the first on stay as they are. -/
theorem holds_of_kept (kept : ∀ number node, first ≤ number → before[number]? = some node →
    after[number]? = some node) (older : later ≤ first) :
    ∀ tree parent? number, before.Holds first parent? number tree →
      after.Holds later parent? number tree
  | .leaf _, _, _, ⟨late, made⟩ => ⟨by omega, kept _ _ late made⟩
  | .misfit _, _, _, ⟨late, made⟩ => ⟨by omega, kept _ _ late made⟩
  | .node _ _ children, _, _, ⟨late, numbers, made, held⟩ =>
    ⟨by omega, numbers, kept _ _ late made, holdAll_of_kept kept older children _ numbers held⟩

theorem holdAll_of_kept (kept : ∀ number node, first ≤ number → before[number]? = some node →
    after[number]? = some node) (older : later ≤ first) :
    ∀ trees holder numbers, before.HoldAll first holder numbers trees →
      after.HoldAll later holder numbers trees
  | [], _, [], _ => trivial
  | tree :: trees, _, _ :: _, ⟨head, tail⟩ =>
    ⟨holds_of_kept kept older tree _ _ head, holdAll_of_kept kept older trees _ _ tail⟩

end

theorem holdAll_append (front : nodes.HoldAll first holder numbers trees)
    (back : nodes.HoldAll first holder more others) :
    nodes.HoldAll first holder (numbers ++ more) (trees ++ others) := by
  induction numbers generalizing trees with
  | nil =>
    cases trees with
    | nil => exact back
    | cons => exact front.elim
  | cons number rest ih =>
    cases trees with
    | nil => exact front.elim
    | cons tree trees => exact ⟨front.1, ih front.2⟩

/-! ## Making nodes -/

theorem getElem?_make : (nodes.make label parent?)[number]? =
    if number = nodes.size then some ⟨label, parent?, []⟩ else nodes[number]? :=
  Array.getElem?_push

@[simp] theorem size_make : (nodes.make label parent?).size = nodes.size + 1 := Array.size_push ..

theorem getElem?_adopt : (nodes.adopt holder child)[number]? =
    if holder = number then
      nodes[number]?.map fun node => { node with children := node.children ++ [child] }
    else nodes[number]? :=
  Array.getElem?_modify ..

@[simp] theorem size_adopt : (nodes.adopt holder child).size = nodes.size := Array.size_modify ..

/-- Below a node that there was before, these trees have been made, and nothing else has changed:
the node has got the new children, and it links to its parent as before. -/
structure Grown (holder : Nat) (numbers : List Nat) (trees : List Tree) (before after : Nodes) :
    Prop where
  size : before.size ≤ after.size
  others : ∀ number < before.size, number ≠ holder → after[number]? = before[number]?
  gained : after[holder]? =
    before[holder]?.map fun node => { node with children := node.children ++ numbers }
  held : after.HoldAll before.size holder numbers trees

theorem grown_nothing : Grown holder [] [] nodes nodes where
  size := Nat.le_refl _
  others _ _ _ := rfl
  gained := by simp
  held := trivial

theorem grown_append (present : holder < before.size)
    (one : Grown holder numbers trees before middle) (two : Grown holder more others middle after) :
    Grown holder (numbers ++ more) (trees ++ others) before after where
  size := Nat.le_trans one.size two.size
  others number inside apart := by
    have known := one.size
    rw [two.others number (by omega) apart, one.others number inside apart]
  gained := by
    rw [two.gained, one.gained]
    cases before[holder]? <;> simp
  held := by
    refine holdAll_append (holdAll_of_kept ?_ (Nat.le_refl _) _ _ _ one.held)
      (holdAll_of_kept (fun _ _ _ made => made) one.size _ _ _ two.held)
    intro number node late made
    have inside : number < middle.size := (Array.getElem?_eq_some_iff.mp made).1
    rwa [two.others number inside (by omega)]

/-- The tree of a node without children. -/
def bare : Label → Tree
  | .leaf token => .leaf token
  | .misfit token => .misfit token
  | .node rule isPartial => .node rule isPartial []

theorem holds_bare (late : first ≤ number) (made : nodes[number]? = some ⟨label, parent?, []⟩) :
    nodes.Holds first parent? number (bare label) := by
  cases label with
  | leaf | misfit => exact ⟨late, made⟩
  | node => exact ⟨late, [], made, trivial⟩

theorem grown_hang (present : holder < nodes.size) (label : Label) :
    Grown holder [nodes.size] [bare label] nodes (nodes.hang holder label) := by
  unfold hang
  refine ⟨by simp, fun number inside apart => ?_, ?_, holds_bare (Nat.le_refl _) ?_, trivial⟩
  · rw [getElem?_adopt, if_neg (Ne.symm apart), getElem?_make, if_neg (Nat.ne_of_lt inside)]
  · rw [getElem?_adopt, if_pos rfl, getElem?_make, if_neg (Nat.ne_of_lt present)]
  · rw [getElem?_adopt, if_neg (Nat.ne_of_lt present), getElem?_make, if_pos rfl]

/-- A node made below another, with the nodes below it, and adopted. -/
theorem grown_node (present : holder < before.size)
    (inner : Grown before.size numbers trees
      (before.make (.node rule isPartial) (some holder)) after) :
    Grown holder [before.size] [.node rule isPartial trees] before
      (after.adopt holder before.size) := by
  have longer := inner.size
  rw [size_make] at longer
  have made (number) (inside : number < before.size) : after[number]? = before[number]? := by
    rw [inner.others number (by rw [size_make]; omega) (Nat.ne_of_lt inside), getElem?_make,
      if_neg (Nat.ne_of_lt inside)]
  refine ⟨by rw [size_adopt]; omega, fun number inside apart => ?_, ?_, ⟨⟨Nat.le_refl _, numbers,
    ?_, holdAll_of_kept (fun number node late known => ?_) (by simp) _ _ _ inner.held⟩, trivial⟩⟩
  · rw [getElem?_adopt, if_neg (Ne.symm apart), made number inside]
  · rw [getElem?_adopt, if_pos rfl, made holder present]
  · rw [getElem?_adopt, if_neg (Nat.ne_of_lt present), inner.gained, getElem?_make, if_pos rfl]
    simp
  · rw [size_make] at late
    rwa [getElem?_adopt, if_neg (by omega)]

mutual

theorem grown_grow (visible : Array Token) : ∀ derivation holder nodes, holder < nodes.size →
    ∃ numbers, Grown holder numbers (Tree.ofDerivation visible derivation) nodes
      (grow visible derivation holder nodes)
  | .token position, holder, nodes, present => by
    rw [grow, Tree.ofDerivation]
    cases visible[position]? with
    | none => exact ⟨_, grown_nothing⟩
    | some token => exact ⟨_, grown_hang present (.leaf token)⟩
  | .node rule isPartial children, holder, nodes, present => by
    obtain ⟨numbers, inner⟩ := grown_growAll visible children nodes.size
      (nodes.make (.node rule isPartial) (some holder)) (by simp)
    exact ⟨_, grown_node present inner⟩

theorem grown_growAll (visible : Array Token) : ∀ derivations holder nodes, holder < nodes.size →
    ∃ numbers, Grown holder numbers (Tree.ofDerivations visible derivations) nodes
      (growAll visible derivations holder nodes)
  | [], _, _, _ => ⟨_, grown_nothing⟩
  | derivation :: rest, holder, nodes, present => by
    obtain ⟨numbers, one⟩ := grown_grow visible derivation holder nodes present
    obtain ⟨more, two⟩ :=
      grown_growAll visible rest holder _ (Nat.lt_of_lt_of_le present one.size)
    exact ⟨_, grown_append present one two⟩

end

theorem grown_misfits (tokens : List Token) (present : holder < nodes.size) :
    ∃ numbers, Grown holder numbers (tokens.map .misfit) nodes
      (tokens.foldl (fun nodes token => nodes.hang holder (.misfit token)) nodes) := by
  induction tokens generalizing nodes with
  | nil => exact ⟨_, grown_nothing⟩
  | cons token rest ih =>
    have one := grown_hang present (.misfit token)
    obtain ⟨more, two⟩ := ih (Nat.lt_of_lt_of_le present one.size)
    exact ⟨_, grown_append present one two⟩

/-- A root alone, below which the rest is made. -/
def alone (rule : Rule) (isPartial : Bool) : Nodes := make #[] (.node rule isPartial) none

theorem grown_root (visible : Array Token) (derivation? : Option Derivation) :
    ∃ rule isPartial numbers trees, Document.root visible derivation? = .node rule isPartial trees ∧
      Grown 0 numbers trees (alone rule isPartial) (root visible derivation?) := by
  match derivation? with
  | some (.node rule isPartial children) =>
    obtain ⟨numbers, grown⟩ :=
      grown_growAll visible children 0 (alone rule isPartial) (by simp [alone])
    exact ⟨rule, isPartial, numbers, _, rfl, grown⟩
  | none | some (.token _) => exact ⟨_, _, _, _, rfl, grown_nothing⟩

/-- The nodes of a document grow from its root to its tree. -/
theorem grown_assemble (stream : Stream) (visible : Array Token) (derivation? : Option Derivation)
    (consumed : Nat) :
    ∃ rule isPartial numbers trees,
      Document.assemble stream visible derivation? consumed = .node rule isPartial trees ∧
        Grown 0 numbers trees (alone rule isPartial)
          (assemble stream visible derivation? consumed) := by
  obtain ⟨rule, isPartial, numbers, trees, planted, grown⟩ := grown_root visible derivation?
  have present : 0 < (alone rule isPartial).size := by simp [alone]
  have rooted := Nat.lt_of_lt_of_le present grown.size
  obtain ⟨more, behind⟩ := grown_misfits (visible.toList.drop consumed) rooted
  have closing := grown_hang (Nat.lt_of_lt_of_le rooted behind.size) (.leaf stream.last)
  refine ⟨rule, isPartial, _, _, ?_,
    grown_append present grown (grown_append rooted behind closing)⟩
  rw [Document.assemble, planted]
  rfl

/-- The first node holds the tree of the document. -/
theorem holds_assemble (stream : Stream) (visible : Array Token) (derivation? : Option Derivation)
    (consumed : Nat) :
    (assemble stream visible derivation? consumed).Holds 0 none 0
      (Document.assemble stream visible derivation? consumed) := by
  obtain ⟨rule, isPartial, numbers, trees, planted, grown⟩ :=
    grown_assemble stream visible derivation? consumed
  rw [planted]
  refine ⟨Nat.le_refl _, numbers, ?_,
    holdAll_of_kept (fun _ _ _ made => made) (Nat.zero_le _) _ _ _ grown.held⟩
  rw [grown.gained, alone, getElem?_make]
  rfl

/-! ## Links -/

/-- Each child links to the node that holds it. -/
def Sound (nodes : Nodes) : Prop :=
  ∀ (number : Nat) (node : LinkedNode), nodes[number]? = some node → ∀ child ∈ node.children,
    ∃ held : LinkedNode, nodes[child]? = some held ∧ held.parent? = some number

theorem sound_make (sound : Sound nodes) (label : Label) (parent? : Option Nat) :
    Sound (nodes.make label parent?) := by
  intro number node made child member
  rw [getElem?_make] at made
  split at made
  · cases made
    cases member
  · obtain ⟨held, found, linked⟩ := sound number node made child member
    have inside := (Array.getElem?_eq_some_iff.mp found).1
    exact ⟨held, by rwa [getElem?_make, if_neg (Nat.ne_of_lt inside)], linked⟩

/-- To adopt a node changes no link. -/
theorem exists_of_adopt {node : LinkedNode} (found : nodes[number]? = some node) :
    ∃ same : LinkedNode, (nodes.adopt holder child)[number]? = some same ∧
      same.parent? = node.parent? := by
  rw [getElem?_adopt]
  split
  · exact ⟨{ node with children := node.children ++ [child] }, by rw [found]; rfl, rfl⟩
  · exact ⟨node, found, rfl⟩

/-- A node adopts those that link to it. -/
theorem sound_adopt (sound : Sound nodes) {node : LinkedNode} (made : nodes[child]? = some node)
    (linked : node.parent? = some holder) : Sound (nodes.adopt holder child) := by
  have stays {number other : Nat} (below : ∃ held : LinkedNode, nodes[other]? = some held ∧
      held.parent? = some number) : ∃ held : LinkedNode,
        (nodes.adopt holder child)[other]? = some held ∧ held.parent? = some number := by
    obtain ⟨held, found, linked⟩ := below
    obtain ⟨same, found, parent⟩ := exists_of_adopt found
    exact ⟨same, found, parent.trans linked⟩
  intro number other present kid member
  rw [getElem?_adopt] at present
  split at present
  · rename_i here
    obtain ⟨old, known, rfl⟩ := Option.map_eq_some_iff.mp present
    rcases List.mem_append.mp member with early | late
    · exact stays (sound number old known kid early)
    · cases List.mem_singleton.mp late
      exact stays ⟨node, made, here ▸ linked⟩
  · exact stays (sound number other present kid member)

theorem sound_hang (sound : Sound nodes) (holder : Nat) (label : Label) :
    Sound (nodes.hang holder label) :=
  sound_adopt (sound_make sound label (some holder)) (getElem?_make.trans (if_pos rfl)) rfl

mutual

theorem sound_grow (visible : Array Token) : ∀ derivation holder nodes, Sound nodes →
    Sound (grow visible derivation holder nodes)
  | .token position, holder, nodes, sound => by
    rw [grow]
    split
    · exact sound_hang sound holder _
    · exact sound
  | .node rule isPartial children, holder, nodes, sound => by
    have begun := sound_make sound (.node rule isPartial) (some holder)
    have inner := sound_growAll visible children nodes.size _ begun
    obtain ⟨numbers, grown⟩ := grown_growAll visible children nodes.size
      (nodes.make (.node rule isPartial) (some holder)) (by simp)
    have found := grown.gained
    rw [getElem?_make, if_pos rfl, Option.map_some] at found
    exact sound_adopt inner found rfl

theorem sound_growAll (visible : Array Token) : ∀ derivations holder nodes, Sound nodes →
    Sound (growAll visible derivations holder nodes)
  | [], _, _, sound => sound
  | derivation :: rest, holder, nodes, sound =>
    sound_growAll visible rest holder _ (sound_grow visible derivation holder nodes sound)

end

/-- In the nodes of a document each child links to the node that holds it. -/
theorem sound_assemble (stream : Stream) (visible : Array Token) (derivation? : Option Derivation)
    (consumed : Nat) : Sound (assemble stream visible derivation? consumed) := by
  have empty : Sound #[] := fun _ _ made => by simp at made
  have rooted : Sound (root visible derivation?) := by
    unfold root
    split
    · exact sound_growAll visible _ 0 _ (sound_make empty _ none)
    · exact sound_make empty _ none
  refine sound_hang (List.foldlRecOn _ _ rooted fun nodes sound token _ => ?_) 0 _
  exact sound_hang sound 0 _

/-! ## Climbing -/

/-- Going up along the links from a node leads through these nodes, the last of which has no
parent. -/
inductive Climbs (nodes : Nodes) : Nat → List Nat → Prop where
  | ends {number : Nat} {node : LinkedNode} (made : nodes[number]? = some node)
    (alone : node.parent? = none) : Climbs nodes number []
  | up {number holder : Nat} {numbers : List Nat} {node : LinkedNode}
    (made : nodes[number]? = some node) (linked : node.parent? = some holder)
    (above : Climbs nodes holder numbers) : Climbs nodes number (holder :: numbers)

/-- A node holds a tree, whatever its parent. -/
def Carries (nodes : Nodes) (number : Nat) (tree : Tree) : Prop :=
  ∃ parent?, nodes.Holds 0 parent? number tree

theorem exists_of_holds : ∀ {tree : Tree}, nodes.Holds first parent? number tree →
    ∃ node : LinkedNode, nodes[number]? = some node ∧ node.parent? = parent?
  | .leaf _, ⟨_, made⟩ | .misfit _, ⟨_, made⟩ => ⟨_, made, rfl⟩
  | .node _ _ _, ⟨_, _, made, _⟩ => ⟨_, made, rfl⟩

theorem exists_of_holdAll {tree : Tree} (held : nodes.HoldAll first holder numbers trees)
    (member : tree ∈ trees) : ∃ number, nodes.Holds first (some holder) number tree := by
  induction trees generalizing numbers with
  | nil => cases member
  | cons other rest ih =>
    cases numbers with
    | nil => exact held.elim
    | cons number numbers =>
      rcases List.mem_cons.mp member with rfl | member
      · exact ⟨number, held.1⟩
      · exact ih held.2 member

/-- The children of a tree are held by nodes that link to the one that holds the tree. -/
theorem exists_of_mem_children {child : Tree} : ∀ {tree : Tree},
    nodes.Holds first parent? number tree → child ∈ tree.children →
      ∃ below, nodes.Holds first (some number) below child
  | .leaf _, _, member | .misfit _, _, member => nomatch member
  | .node _ _ _, ⟨_, _, _, held⟩, member => exists_of_holdAll held member

end Nodes

end CypherAssist
