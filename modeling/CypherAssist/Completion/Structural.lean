import CypherAssist.Completion.Item
import CypherAssist.Document.Navigation
import CypherAssist.Document.Parse
import CypherAssist.Schema.Catalog

/-! Completions read off the syntax tree. Only the place where parsing stopped is looked at. -/
namespace CypherAssist.Completion
open Schema

/-- Function names that start with what has been typed, letter case included. -/
def functionItems (catalog : Catalog) (typed : String) : List Item :=
  let typed := Text.WideText.ofString typed
  items (catalog.functionNames.filter fun name => typed.isPrefixOf name) .function

/-- Whether a document ends with a blank, or has no token at all. -/
def endsBlank (document : Document) : Bool :=
  match document.stream.body.getLast? with
  | none => true
  | some token => token.kind = .blank

/-- The names that fit where parsing stopped. Nothing fits where the text could not be read to its
end. -/
def structural (document : Document) (catalog : Catalog) : Suggestions :=
  if document.stream.body.isEmpty then none
  else if !document.stream.isWhole then some []
  else if endsBlank document then none
  else
    let (_, above) := document.tree.stop
    if Tree.inRelationshipType above then some (items catalog.relationshipTypes .typeParameter)
    else
      match Tree.parentExpression? above with
      | some expression => some (functionItems catalog expression.text)
      | none =>
        if Tree.inProcedureName above then some (items catalog.procedureNames .function)
        else none

/-- The letter put at the caret so that the rule being typed is taken. -/
def filler : String := "x"

/-- The relationship types, where a name at the caret would be one. -/
def structuralFilled (limits : Limits) (text : String) (catalog : Catalog) : Suggestions :=
  let document := Document.parse limits (text ++ filler)
  if endsBlank document then none
  else if Tree.inRelationshipType document.tree.stop.2 then
    some (items catalog.relationshipTypes .typeParameter)
  else none

end CypherAssist.Completion
