import CypherAssist.Document.Parse

/-! Diagnostics: the problems of a document as ranges of lines and columns, counted from zero. -/
namespace CypherAssist

/-- How serious a problem is. -/
inductive Severity where
  | error | warning | information | hint
  deriving DecidableEq, Repr

/-- A message about a range of a document. -/
structure Diagnostic where
  startLine : Nat
  startColumn : Nat
  endLine : Nat
  endColumn : Nat
  message : String
  severity : Severity
  source : String
  deriving DecidableEq, Repr

namespace Diagnostic

/-- The name under which syntax problems are reported. -/
def syntaxSource : String := "cypherls"

/-- The length of the part of a token on its first line. -/
def firstLine (token : Token) : Nat := (token.lexeme.takeWhile (· != '\n')).length

/-- A problem marks the first line of its token, and nothing at the regular end of a text. -/
def ofIssue (issue : Issue) : Diagnostic :=
  { startLine := issue.token.line - 1
    startColumn := issue.token.column
    endLine := issue.token.line - 1
    endColumn := issue.token.column + firstLine issue.token
    message := issue.message
    severity := .warning
    source := syntaxSource }

/-- The syntax problems of a text. -/
def ofText (limits : Limits) (text : String) : List Diagnostic :=
  (Document.parse limits text).issues.map ofIssue

end Diagnostic

end CypherAssist
