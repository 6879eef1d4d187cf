import CypherAssist.Document.Parse
import CypherAssist.Grammar.Candidate

/-! Candidates as completion needs them. Rules that have the shape of a name are preferred, so that
they are found as one rule and not as the keywords which a name may also be; of the tokens only
keywords are kept. -/
namespace CypherAssist.Completion
open Token Grammar

/-- The tables that completion reads: rules to report whole, kinds of token never offered, and the
text by which a kind is offered. -/
structure Config where
  preferred : List Rule := [.unescapedSymbolicNameString, .escapedSymbolicNameString,
    .stringLiteral, .symbolicLabelNameString, .symbolicAliasName]
  ignored : List Kind := Kind.all.filter fun kind => kind.category != .keyword
  names : Kind → Option String := Kind.display?

/-- The index of the last token before the closing one, or zero where there is none. -/
def caretIndex (stream : Stream) : Nat := stream.body.length - 1

/-- The candidates at a token of a document. Text nested too deeply has none. -/
def candidatesAt (limits : Limits) (document : Document) (index : Nat) (config : Config) :
    Candidates :=
  match collect cypher Grammar.start document.stream.toList index config.preferred config.ignored
      limits.collecting with
  | .ok candidates => candidates
  | .error _ => {}

end CypherAssist.Completion
