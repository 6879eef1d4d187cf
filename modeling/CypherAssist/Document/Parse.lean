import CypherAssist.Document.Issue
import CypherAssist.Document.Tree
import CypherAssist.Grammar.Parser

/-! Parsing of a document that may still be in the making. Where the text ends inside a rule, the
open rules are closed there and marked partial. Where a token fits nowhere, the text before it
makes up the tree and the remaining tokens hang off the root as misfits. Parsing never fails. -/
namespace CypherAssist
open Token Grammar

/-- How many rules may be open at once while a text is parsed, and while the candidates at a caret
are collected. Both are set by the interpreter that runs the two. -/
structure Limits where
  parsing : Nat
  collecting : Nat
  deriving DecidableEq, Repr

/-- A text with its tokens, its syntax tree and the problems found. -/
structure Document where
  text : String
  stream : Stream
  tree : Tree
  issues : List Issue

namespace Document

/-- Parses visible tokens as a whole document. -/
def derive (limits : Limits) (visible : Array Token) :
    Except Obstacle (Outcomes Derivation × ParserState) :=
  parseFrom cypher (visible.map (·.kind)) limits.parsing Grammar.start 0

/-- The derivation of the tokens before a misfit: one that ends with them, else one they leave
open. -/
def deriveBefore (limits : Limits) (visible : Array Token) (count : Nat) : Option Derivation :=
  match derive limits (visible.take count) with
  | .ok (found, _) => found.at? (.upTo count) <|> found.at? .cut
  | .error _ => none

/-- The root of a derivation, an empty partial root where there is none. -/
def root (visible : Array Token) (derivation? : Option Derivation) : Tree :=
  match derivation? with
  | some (.node rule isPartial children) =>
    .node rule isPartial (Tree.ofDerivations visible children)
  | _ => .node Grammar.start true []

/-- The tree of a document: the root, the tokens behind what was parsed and the closing token. -/
def assemble (stream : Stream) (visible : Array Token) (derivation? : Option Derivation)
    (consumed : Nat) : Tree :=
  (root visible derivation?).append
    ((visible.toList.drop consumed).map .misfit ++ [.leaf stream.last])

/-- The problem that reading the text may have left. -/
def lexicalIssues (stream : Stream) : List Issue :=
  stream.unterminated?.toList.map fun what => ⟨.unterminated what, stream.last⟩

/-- What parsing makes of the visible tokens: a derivation, if there is one, the number of tokens
that it stands for, and the problems met. -/
structure Result where
  derivation? : Option Derivation
  consumed : Nat
  issues : List Issue

/-- Parses the visible tokens of a stream: as a document, else as the beginning of one, else as far
as they are one. -/
def result (limits : Limits) (stream : Stream) : Result :=
  let visible := stream.visible.toArray
  match derive limits visible with
  | .error _ => ⟨none, 0, [⟨.tooDeep, stream.last⟩]⟩
  | .ok (found, state) =>
    match found.at? (.upTo visible.size), found.at? .cut with
    | some derivation, _ => ⟨some derivation, visible.size, []⟩
    | none, some derivation =>
      ⟨some derivation, visible.size,
        if visible.isEmpty then [] else [⟨.unexpectedEnd state.expected, stream.last⟩]⟩
    | none, none =>
      let consumed := min state.farthest visible.size
      let offending := (visible[consumed]?).getD stream.last
      ⟨deriveBefore limits visible consumed, consumed,
        [⟨.unexpected offending.text state.expected, offending⟩]⟩

/-- Reads and parses a text. -/
def parse (limits : Limits) (text : String) : Document :=
  let stream := Stream.ofText text.toList
  let result := result limits stream
  { text, stream
    tree := assemble stream stream.visible.toArray result.derivation? result.consumed
    issues := lexicalIssues stream ++ result.issues }

end Document

end CypherAssist
