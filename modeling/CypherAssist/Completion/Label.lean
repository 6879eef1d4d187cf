import CypherAssist.Completion.Item
import CypherAssist.Grammar.Candidate

/-! Labels of keyword candidates. A keyword that always comes with others is offered together with
them only; one that may come with others is offered both ways. -/
namespace CypherAssist.Completion
open Token Grammar

/-- The labels of a token candidate. A kind without a name is not offered, and such a kind among
the tokens that follow is passed over. -/
def labels (candidate : TokenCandidate) (names : Kind → Option String) : List String :=
  match names candidate.kind with
  | none => []
  | some display =>
    let following := " ".intercalate (candidate.followUp.filterMap names)
    if following.isEmpty then [display]
    else if candidate.isOptional then [display, display ++ " " ++ following]
    else [display ++ " " ++ following]

/-- The items of all token candidates in turn. -/
def tokenItems (candidates : List TokenCandidate) (names : Kind → Option String) : List Item :=
  candidates.flatMap fun candidate =>
    items ((labels candidate names).map Text.WideText.ofString) .keyword

end CypherAssist.Completion
