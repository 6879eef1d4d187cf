import CypherAssist.Client.Log

/-! Hooks: what is to be done when something happens to a document. The hooks of an event run in the
order in which they were added, and one that fails does not keep the others from running. -/
namespace CypherAssist.Session
open Client

/-- What happens to a document. -/
inductive Event where
  | opened
  | changed
  | saved
  | closed
  deriving DecidableEq, Repr

/-- The name of an event, as messages use it. -/
def Event.name : Event → String
  | .opened => "on_open"
  | .changed => "on_change"
  | .saved => "on_save"
  | .closed => "on_close"

/-- The notice of an event: which document, and in which version if the event has one. -/
structure Notice where
  event : Event
  uri : String
  version? : Option Int := none
  deriving DecidableEq, Repr

/-- An action for the notices of an event. -/
structure Hook (m : Type → Type) where
  event : Event
  name : String
  run : Notice → m (Except Failure Unit)

/-- The log message of a hook that failed. -/
def hookFailure (event : Event) (name : String) (failure : Failure) : Message :=
  failure.message ("Error in " ++ event.name ++ " hook " ++ name)

variable {m : Type → Type} [Monad m]

/-- Runs hooks in turn and reports the failures. -/
def runHooks (report : Message → m Unit) (notice : Notice) : List (Hook m) → m Unit
  | [] => pure ()
  | hook :: rest => do
    match ← hook.run notice with
    | .ok () => pure ()
    | .error failure => report (hookFailure notice.event hook.name failure)
    runHooks report notice rest

/-- Runs the hooks that were added for the event of a notice. -/
def broadcast (report : Message → m Unit) (hooks : List (Hook m)) (notice : Notice) : m Unit :=
  runHooks report notice (hooks.filter fun hook => hook.event = notice.event)

end CypherAssist.Session
