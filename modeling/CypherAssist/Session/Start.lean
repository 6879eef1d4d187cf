import CypherAssist.Schema.Value
import CypherAssist.Workspace.Uri

/-! What a client says when a session starts: where its workspace lies, and its options. -/
namespace CypherAssist.Session
open Schema Workspace

/-- The introduction of a client. The workspace may be named in three ways. -/
structure Introduction where
  rootUri? : Option String := none
  folders : List String := []
  rootPath? : Option String := none
  options : Value := .null
  deriving Repr

namespace Introduction

/-- The root of the workspace: the root URI, else the first folder, else the root path. An empty
text counts as missing. -/
def root? (introduction : Introduction) : Except UriError (Option Path) :=
  match introduction.rootUri?.filter (· ≠ ""), introduction.folders,
      introduction.rootPath?.filter (· ≠ "") with
  | some uri, _, _ => (pathOfUri? uri).map some
  | none, folder :: _, _ => (pathOfUri? folder).map some
  | none, [], some path => .ok (some (Path.ofText path))
  | none, [], none => .ok none

/-- Whether options ask for completions from the syntax tree before those from the grammar. -/
def prefersTree (options : Value) : Bool :=
  ((options.field? "preferStructural").getD .null).isTruthy

end Introduction

end CypherAssist.Session
