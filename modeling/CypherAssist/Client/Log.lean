import CypherAssist.Text.Quoted

/-! What is logged for the client: messages with a level, and failures as their texts show them. -/
namespace CypherAssist.Client
open Text

/-- How much a message matters. -/
inductive Level where
  | error
  | warning
  | info
  | log
  deriving DecidableEq, Repr

/-- A message in the log of the client. -/
structure Message where
  level : Level
  text : WideText
  deriving DecidableEq, Repr

/-- A failure by its kind and what it says. -/
structure Failure where
  kind : String
  text : WideText
  deriving DecidableEq, Repr

namespace Failure

/-- What a failure says when it is shown. The key that is missing is quoted. -/
def detail (failure : Failure) : WideText :=
  if failure.kind = "KeyError" then Text.quoted failure.text else failure.text

/-- The log message of a failure, with the action that failed in front. -/
def message (failure : Failure) (action : String) : Message :=
  ⟨.error, action ++ ": " ++ failure.kind ++ ": " ++ failure.detail⟩

end Failure

end CypherAssist.Client
