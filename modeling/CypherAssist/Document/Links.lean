import CypherAssist.Document.Parse

/-! How the nodes of a tree are linked. A node is made with a link to its parent, gets its children
one after the other, and is put among the children of its parent when it has them all. Nodes are
numbered in the order in which they are made; the root is the first. -/
namespace CypherAssist
open Token Grammar

/-- What a node stands for: a token, a token that has no place in the grammar, or a rule. -/
inductive Label where
  | leaf (token : Token)
  | misfit (token : Token)
  | node (rule : Rule) (isPartial : Bool)
  deriving Repr

/-- A node, with a link to its parent and its children. -/
structure LinkedNode where
  label : Label
  parent? : Option Nat
  children : List Nat := []
  deriving Repr

/-- The nodes made so far. -/
abbrev Nodes := Array LinkedNode

namespace Nodes

/-- Makes a node without children. Its number is how many there were before. -/
def make (nodes : Nodes) (label : Label) (parent? : Option Nat) : Nodes :=
  nodes.push { label, parent? }

/-- Puts a node behind the children of its parent. -/
def adopt (nodes : Nodes) (holder child : Nat) : Nodes :=
  nodes.modify holder fun node => { node with children := node.children ++ [child] }

/-- Makes a node that will have no children, and puts it behind those of its parent. -/
def hang (nodes : Nodes) (holder : Nat) (label : Label) : Nodes :=
  (nodes.make label (some holder)).adopt holder nodes.size

mutual

/-- Makes the nodes of a derivation below a node. -/
def grow (visible : Array Token) : Derivation → Nat → Nodes → Nodes
  | .token position, holder, nodes =>
    match visible[position]? with
    | some token => nodes.hang holder (.leaf token)
    | none => nodes
  | .node rule isPartial children, holder, nodes =>
    let made := nodes.make (.node rule isPartial) (some holder)
    (growAll visible children nodes.size made).adopt holder nodes.size

/-- Makes the nodes of several derivations in turn. -/
def growAll (visible : Array Token) : List Derivation → Nat → Nodes → Nodes
  | [], _, nodes => nodes
  | derivation :: rest, holder, nodes =>
    growAll visible rest holder (grow visible derivation holder nodes)

end

/-- The root of a derivation with the nodes below it, an empty partial root where there is none. -/
def root (visible : Array Token) (derivation? : Option Derivation) : Nodes :=
  match derivation? with
  | some (.node rule isPartial children) =>
    growAll visible children 0 (make #[] (.node rule isPartial) none)
  | _ => make #[] (.node Grammar.start true) none

/-- The nodes of a document: those of the root, the tokens behind what was parsed and the closing
token. -/
def assemble (stream : Stream) (visible : Array Token) (derivation? : Option Derivation)
    (consumed : Nat) : Nodes :=
  let behind := (visible.toList.drop consumed).foldl
    (fun nodes token => nodes.hang 0 (.misfit token)) (root visible derivation?)
  behind.hang 0 (.leaf stream.last)

end Nodes

/-- The nodes made when a text is parsed. -/
def Document.nodes (limits : Limits) (text : String) : Nodes :=
  let stream := Stream.ofText text.toList
  let result := result limits stream
  Nodes.assemble stream stream.visible.toArray result.derivation? result.consumed

end CypherAssist
