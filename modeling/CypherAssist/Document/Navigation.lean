import CypherAssist.Document.Tree

/-! Ways through a syntax tree: where parsing stopped, and what encloses that place. A place is
given by the nodes above it, the closest first. -/
namespace CypherAssist.Tree
open Grammar

/-- Whether a tree holds a token that is not the closing one. -/
def coversText : Tree → Bool
  | .leaf token => !token.isEnd
  | .misfit token => !token.isEnd
  | .node rule isPartial children => !(Tree.node rule isPartial children).isEmpty

mutual

/-- The nodes from a tree down to the one where parsing stopped: always into the last child that
covers text, as long as that is a node. -/
def stopPath : Tree → List Tree
  | .leaf _ => []
  | .misfit _ => []
  | .node rule isPartial children => .node rule isPartial children :: stopPathAmong children

/-- The path into the last of several trees that covers text. -/
def stopPathAmong : List Tree → List Tree
  | [] => []
  | child :: rest =>
    if rest.any coversText then stopPathAmong rest
    else if child.coversText then child.stopPath
    else []

end

mutual

/-- Every leaf of a tree with the nodes above it, given those above the tree. -/
def leavesBelow (above : List Tree) : Tree → List (Token × List Tree)
  | .leaf token => [(token, above)]
  | .misfit token => [(token, above)]
  | .node rule isPartial children =>
    leavesBelowAll (.node rule isPartial children :: above) children

/-- The leaves of several trees in turn. -/
def leavesBelowAll (above : List Tree) : List Tree → List (Token × List Tree)
  | [] => []
  | child :: rest => leavesBelow above child ++ leavesBelowAll above rest

end

/-- Whether the node carries one of the rules. -/
def hasRule (rules : List Rule) (tree : Tree) : Bool :=
  match tree.rule? with
  | some rule => rules.contains rule
  | none => false

/-- The closest node above a place that carries one of the rules, and the nodes above that. -/
def enclosing? (rules : List Rule) (above : List Tree) : Option (Tree × List Tree) :=
  match above.dropWhile fun tree => !tree.hasRule rules with
  | [] => none
  | tree :: outer => some (tree, outer)

/-- The place where parsing stopped: the node there and the nodes above it. -/
def stop (tree : Tree) : Tree × List Tree :=
  match tree.stopPath.reverse with
  | [] => (tree, [])
  | last :: above => (last, above)

/-- Whether a label above the place belongs to a relationship. -/
def inRelationshipType (above : List Tree) : Bool :=
  match enclosing? [.labelExpression4] above with
  | none => false
  | some (_, outer) => (enclosing? [.relationshipPattern] outer).isSome

/-- The closest expression with postfix operators above the place. -/
def parentExpression? (above : List Tree) : Option Tree :=
  (enclosing? [.expression2] above).map (·.1)

/-- Whether the place is in the name of a procedure. -/
def inProcedureName (above : List Tree) : Bool :=
  (enclosing? [.procedureName] above).isSome

end CypherAssist.Tree
