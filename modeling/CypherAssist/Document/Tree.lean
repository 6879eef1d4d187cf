import CypherAssist.Grammar.Derivation
import CypherAssist.Token.Basic

/-! Syntax trees. The leaves of a tree, read from left to right, are tokens of the stream; an inner
node carries the rule it stands for. -/
namespace CypherAssist
open Grammar

/-- A leaf holds one token, a misfit one that has no place in the grammar. A node is partial when
the text ended inside its rule. -/
inductive Tree where
  | leaf (token : Token)
  | misfit (token : Token)
  | node (rule : Rule) (isPartial : Bool) (children : List Tree)
  deriving Repr

namespace Tree

mutual

/-- The tokens of the leaves, misfits included. -/
def tokens : Tree → List Token
  | .leaf token => [token]
  | .misfit token => [token]
  | .node _ _ children => tokensOfAll children

/-- The tokens of several trees in turn. -/
def tokensOfAll : List Tree → List Token
  | [] => []
  | tree :: rest => tree.tokens ++ tokensOfAll rest

end

mutual

/-- The tree and all trees in it, each before its children. -/
def subtrees : Tree → List Tree
  | .leaf token => [.leaf token]
  | .misfit token => [.misfit token]
  | .node rule isPartial children => .node rule isPartial children :: subtreesOfAll children

/-- The trees in several trees in turn. -/
def subtreesOfAll : List Tree → List Tree
  | [] => []
  | tree :: rest => tree.subtrees ++ subtreesOfAll rest

end

/-- The children of a node. -/
def children : Tree → List Tree
  | .leaf _ => []
  | .misfit _ => []
  | .node _ _ children => children

/-- The rule of a node. -/
def rule? : Tree → Option Rule
  | .leaf _ => none
  | .misfit _ => none
  | .node rule _ _ => some rule

/-- Whether a tree covers no token. -/
def isEmpty (tree : Tree) : Bool := tree.tokens.isEmpty

/-- The text of the covered tokens; hidden tokens and the closing one are left out. -/
def text (tree : Tree) : String :=
  String.join ((tree.tokens.filter fun token => !token.isEnd).map (·.text))

mutual

/-- The trees of a derivation over the visible tokens. -/
def ofDerivation (visible : Array Token) : Derivation → List Tree
  | .token position => (visible[position]?.map Tree.leaf).toList
  | .node rule isPartial children => [.node rule isPartial (ofDerivations visible children)]

/-- The trees of several derivations in turn. -/
def ofDerivations (visible : Array Token) : List Derivation → List Tree
  | [] => []
  | derivation :: rest => ofDerivation visible derivation ++ ofDerivations visible rest

end

/-- Adds children at the end of a node. -/
def append : Tree → List Tree → Tree
  | .leaf token, _ => .leaf token
  | .misfit token, _ => .misfit token
  | .node rule isPartial children, more => .node rule isPartial (children ++ more)

end Tree

end CypherAssist
