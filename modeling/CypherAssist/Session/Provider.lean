import CypherAssist.Completion.Item
import CypherAssist.Document.Diagnostic
import CypherAssist.Session.Hook
import CypherAssist.Text.Caret

/-! Providers of language features. Several providers may offer one feature. Completions and
semantic tokens come from the first provider that has an answer, diagnostics from all of them
together. A provider that fails is reported and counts as one without an answer. -/
namespace CypherAssist.Session
open Client

/-- A provider's part in a feature: whether it takes on a request, and what it answers. -/
structure Answerer (m : Type → Type) (Request Answer : Type) where
  accepts : Request → m (Except Failure Bool)
  answer : Request → m (Except Failure (Option Answer))

/-- The document and the position at which completions are wanted. -/
structure CompletionRequest where
  uri : String
  position : Text.Position
  deriving DecidableEq, Repr

/-- The feature that a provider offers. Semantic tokens and diagnostics are wanted for the document
of a URI. -/
inductive Feature (m : Type → Type) where
  | completion (answerer : Answerer m CompletionRequest (List Completion.Item))
  | semanticTokens (answerer : Answerer m String (List Int))
  | diagnostics (answerer : Answerer m String (List Diagnostic))

/-- A provider: its name, what it does when it is registered, and its feature. -/
structure Provider (m : Type → Type) where
  name : String
  register : m Unit
  feature : Feature m

/-- Diagnostics as they are published for a document. -/
structure Publication where
  uri : String
  version? : Option Int
  diagnostics : List Diagnostic
  deriving DecidableEq, Repr

variable {m : Type → Type} [Monad m] {Request Answer : Type}

namespace Answerer

/-- Asks for an answer if the request is taken on. -/
def ask (answerer : Answerer m Request Answer) (request : Request) :
    m (Except Failure (Option Answer)) := do
  match ← answerer.accepts request with
  | .error failure => return .error failure
  | .ok false => return .ok none
  | .ok true => answerer.answer request

/-- The answer of a provider by its name; a failure to do what was asked is reported. -/
def askReporting (report : Message → m Unit) (action : String)
    (named : String × Answerer m Request Answer) (request : Request) : m (Option Answer) := do
  match ← named.2.ask request with
  | .ok answer? => return answer?
  | .error failure =>
    report (failure.message (action ++ " error in " ++ named.1))
    return none

/-- The first answer; the providers behind it are not asked. -/
def firstAnswer (report : Message → m Unit) (action : String) (request : Request) :
    List (String × Answerer m Request Answer) → m (Option Answer)
  | [] => return none
  | named :: rest => do
    match ← askReporting report action named request with
    | some answer => return some answer
    | none => firstAnswer report action request rest

/-- The answers of all providers in turn, put together. -/
def allAnswers {Item : Type} (report : Message → m Unit) (action : String) (request : Request) :
    List (String × Answerer m Request (List Item)) → m (List Item)
  | [] => return []
  | named :: rest => do
    let answer? ← askReporting report action named request
    return answer?.getD [] ++ (← allAnswers report action request rest)

end Answerer

namespace Provider

/-- The providers of completions, with their names. -/
def completers (providers : List (Provider m)) :
    List (String × Answerer m CompletionRequest (List Completion.Item)) :=
  providers.filterMap fun provider => match provider.feature with
    | .completion answerer => some (provider.name, answerer)
    | _ => none

/-- The providers of semantic tokens, with their names. -/
def highlighters (providers : List (Provider m)) : List (String × Answerer m String (List Int)) :=
  providers.filterMap fun provider => match provider.feature with
    | .semanticTokens answerer => some (provider.name, answerer)
    | _ => none

/-- The providers of diagnostics, with their names. -/
def checkers (providers : List (Provider m)) :
    List (String × Answerer m String (List Diagnostic)) :=
  providers.filterMap fun provider => match provider.feature with
    | .diagnostics answerer => some (provider.name, answerer)
    | _ => none

/-- Adds a provider; it takes the place of one with its name. -/
def insert (providers : List (Provider m)) (provider : Provider m) : List (Provider m) :=
  if providers.any fun known => known.name = provider.name then
    providers.map fun known => if known.name = provider.name then provider else known
  else providers ++ [provider]

/-- The provider with a name. -/
def find? (providers : List (Provider m)) (name : String) : Option (Provider m) :=
  providers.find? fun provider => provider.name = name

/-- The completions for a request; none where no provider has an answer. -/
def completions (report : Message → m Unit) (providers : List (Provider m))
    (request : CompletionRequest) : m (List Completion.Item) := do
  return (← Answerer.firstAnswer report "Completion" request (completers providers)).getD []

/-- The semantic tokens of a document. -/
def semanticTokens? (report : Message → m Unit) (providers : List (Provider m)) (uri : String) :
    m (Option (List Int)) :=
  Answerer.firstAnswer report "Semantic tokens" uri (highlighters providers)

/-- The diagnostics of a document. -/
def diagnostics (report : Message → m Unit) (providers : List (Provider m)) (uri : String) :
    m (List Diagnostic) :=
  Answerer.allAnswers report "Diagnostics" uri (checkers providers)

/-- Publishes the diagnostics of a document in a version. -/
def publish (report : Message → m Unit) (send : Publication → m Unit)
    (providers : List (Provider m)) (uri : String) (version? : Option Int) : m Unit := do
  send ⟨uri, version?, ← diagnostics report providers uri⟩

/-- The hooks that keep published diagnostics in step with documents: they are published anew when
a document is opened or changed, and taken back when it is closed. -/
def publishingHooks (report : Message → m Unit) (send : Publication → m Unit)
    (providers : List (Provider m)) : List (Hook m) :=
  let refresh (notice : Notice) : m (Except Failure Unit) := do
    publish report send providers notice.uri notice.version?
    return .ok ()
  let clear (notice : Notice) : m (Except Failure Unit) := do
    send ⟨notice.uri, none, []⟩
    return .ok ()
  [⟨.opened, "_on_document_opened", refresh⟩, ⟨.changed, "_on_document_changed", refresh⟩,
   ⟨.closed, "_on_document_closed", clear⟩]

end Provider

/-- Providers together with the hooks of a session, of which there are none where documents are not
followed. -/
structure Registry (m : Type → Type) where
  providers : List (Provider m)
  hooks? : Option (List (Hook m)) := some []
  isRegistered : Bool := false

/-- Registers all providers, the first time only. Where one of them offers diagnostics, hooks that
publish them are added. -/
def Registry.register (report : Message → m Unit) (send : Publication → m Unit)
    (registry : Registry m) : m (Registry m) := do
  if registry.isRegistered then return registry
  registry.providers.forM fun provider => provider.register
  let added :=
    if (Provider.checkers registry.providers).isEmpty then []
    else Provider.publishingHooks report send registry.providers
  return { registry with
    hooks? := registry.hooks?.map (· ++ added)
    isRegistered := true }

end CypherAssist.Session
