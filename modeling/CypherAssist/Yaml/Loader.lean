import CypherAssist.Schema.File
import CypherAssist.Text.Line
import CypherAssist.Yaml.Load

/-! A loader for the machine on which the program is run. It reads YAML as far as schema files use
it: nodes with the tags that every text can have, but no sets, pairs or binary data, and no tags by
directives. The program takes any loader, and nothing that is said about the program depends on this
one. -/
namespace CypherAssist.Yaml
open Text

/-- Reads bytes as text in UTF-8 with ends of lines of all kinds, and the text as YAML. -/
def loader : Schema.Loader := fun bytes =>
  match Utf8.strictPortions bytes with
  | .error error => .error (.failed ⟨"UnicodeDecodeError", error.message⟩)
  | .ok text =>
    match load (unifyBreaks text) with
    | .ok data => .ok data
    | .error .invalid => .error (.invalid "")
    | .error (.datum error) => .error (.failed ⟨error.kind, error.message⟩)

end CypherAssist.Yaml
