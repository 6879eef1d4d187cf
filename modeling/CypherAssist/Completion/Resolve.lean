import CypherAssist.Completion.Classify
import CypherAssist.Completion.Config
import CypherAssist.Completion.Label
import CypherAssist.Completion.Structural
import CypherAssist.Text.Caret

/-! Completion at a caret. Two sources are combined: the grammar, which says what may stand at the
caret, and the syntax tree, which is asked where the text before the caret does not parse. -/
namespace CypherAssist.Completion
open Schema

/-- Completions from the grammar. Where it has no candidate there is no opinion; a candidate that
offers nothing is an answer. -/
def fromGrammar (limits : Limits) (document : Document) (catalog : Catalog)
    (config : Config := {}) : Suggestions :=
  let candidates := candidatesAt limits document (caretIndex document.stream) config
  if candidates.rules.isEmpty && candidates.tokens.isEmpty then none
  else
    some (ruleItems candidates.rules catalog document.stream.toList ++
      tokenItems candidates.tokens config.names)

/-- Completions from the syntax tree, at first of the text and then of the text with a letter put
at the caret. -/
def fromTree (limits : Limits) (document : Document) (catalog : Catalog) : Suggestions :=
  structural document catalog <|> structuralFilled limits document.text catalog

/-- Completions at the end of a text. Nothing is offered inside a construct that is not closed. -/
def atEnd (limits : Limits) (text : String) (catalog : Catalog) (preferTree : Bool)
    (config : Config := {}) : Suggestions :=
  let document := Document.parse limits text
  if !document.stream.isWhole then some []
  else
    let grammar := fromGrammar limits document catalog config
    let tree := fromTree limits document catalog
    if preferTree then tree <|> grammar else grammar <|> tree

/-- Completions at a position of a text. -/
def atPosition (limits : Limits) (text : String) (position : Text.Position) (catalog : Catalog)
    (preferTree : Bool) (config : Config := {}) : Suggestions :=
  atEnd limits (Text.untilPosition text position) catalog preferTree config

end CypherAssist.Completion
