import CypherAssist.Text.Wide

/-! Completion items. -/
namespace CypherAssist.Completion
open Text

/-- What a completion stands for. -/
inductive ItemKind where
  | keyword | typeParameter | function | value | text
  deriving DecidableEq, Repr

/-- A text offered at the caret. -/
structure Item where
  label : WideText
  kind : ItemKind
  deriving DecidableEq, Repr

/-- What a source of completions answers. `none` leaves the answer to the next source, while an
empty list says that nothing fits. -/
abbrev Suggestions := Option (List Item)

/-- Items of one kind for a list of names. -/
def items (names : List WideText) (kind : ItemKind) : List Item :=
  names.map fun name => ⟨name, kind⟩

end CypherAssist.Completion
