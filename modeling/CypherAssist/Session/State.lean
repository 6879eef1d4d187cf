import CypherAssist.Completion.Resolve
import CypherAssist.Completion.Words
import CypherAssist.Document.Highlight
import CypherAssist.Schema.Store
import CypherAssist.Session.Provider
import CypherAssist.Session.Start

/-! A session with a client. The session knows the documents that are open and the catalog in use;
it answers requests, and tells the client what it logs and which problems documents have. How
documents are kept is left to its setting. -/
namespace CypherAssist
open Client Schema Workspace

/-- What stays as it is throughout a session: how deep the parser and the collector go, and how
documents are kept. An open document has a key by its URI, documents are opened under some URIs
only, and one that is not open has its text from the files. -/
structure Session.Setting where
  limits : Limits
  key : String → String
  accepts : String → Except Failure Unit
  fileText : Files → String → Except Failure String

/-- The state of a session: the machine it runs on, the workspace, and what the client has been
told. Open documents are known by their keys. -/
structure Session (setting : Session.Setting) where
  machine : Machine
  root? : Option Path := none
  prefersTree : Bool := false
  store : Store := {}
  documents : List (String × String) := []
  log : List Message := []
  published : List Session.Publication := []

namespace Session

variable {setting : Setting}

/-- Logs a message for the client. -/
def report (message : Message) : StateM (Session setting) Unit :=
  modify fun session => { session with log := session.log ++ [message] }

/-- Publishes the diagnostics of a document. -/
def send (publication : Publication) : StateM (Session setting) Unit :=
  modify fun session => { session with published := session.published ++ [publication] }

/-- Whether a document is open. -/
def isOpen (session : Session setting) (uri : String) : Bool :=
  session.documents.any fun document => document.1 = setting.key uri

/-- The documents with the text of one of them set. -/
def withDocument (session : Session setting) (uri text : String) : Session setting :=
  { session with
    documents := (setting.key uri, text) ::
      session.documents.filter fun document => document.1 != setting.key uri }

/-- The documents without one of them. -/
def withoutDocument (session : Session setting) (uri : String) : Session setting :=
  { session with
    documents := session.documents.filter fun document => document.1 != setting.key uri }

/-- The text of a document. One that is not open is read from its file. -/
def text (session : Session setting) (uri : String) : Except Failure String :=
  match session.documents.lookup (setting.key uri) with
  | some text => .ok text
  | none => setting.fileText session.machine.files uri

/-- A part in a feature that takes on every request and answers from the text of the document. -/
def fromText {Request Answer : Type} (uri : Request → String)
    (answer : Session setting → Request → String → Option Answer) :
    Answerer (StateM (Session setting)) Request Answer where
  accepts _ := return .ok true
  answer request := do
    let session ← get
    return (session.text (uri request)).map (answer session request)

/-- Completions by the grammar and the catalog. -/
def cypherCompletion : Provider (StateM (Session setting)) where
  name := "cypher_completion"
  register := pure ()
  feature := .completion <| fromText CompletionRequest.uri fun session request text =>
    Completion.atPosition setting.limits text request.position session.store.catalog
      session.prefersTree

/-- Completions by the words of the document. -/
def wordCompletion : Provider (StateM (Session setting)) where
  name := "document_words_completion"
  register := pure ()
  feature := .completion <| fromText CompletionRequest.uri fun _ request text =>
    some (Completion.documentWords text request.position)

/-- Colours for the pieces of a document. -/
def highlighting : Provider (StateM (Session setting)) where
  name := "cypher_semantic_tokens"
  register := pure ()
  feature := .semanticTokens <| fromText id fun _ _ text =>
    some (Highlight.tokensOf setting.limits text)

/-- The syntax problems of a document. -/
def syntaxCheck : Provider (StateM (Session setting)) where
  name := "syntax_diagnostics"
  register := pure ()
  feature := .diagnostics <| fromText id fun _ _ text =>
    some (Diagnostic.ofText setting.limits text)

/-- The providers of a session in the order in which they are asked. -/
def providers : List (Provider (StateM (Session setting))) :=
  [cypherCompletion, wordCompletion, highlighting, syntaxCheck]

/-- Takes over what an operation on the store leaves, and logs what it has to say. -/
def settle {α : Type} (outcome : Outcome α) : StateM (Session setting) (Except Failure α) := do
  modify fun session =>
    { session with store := outcome.store, log := session.log ++ outcome.log }
  return outcome.result.mapError StoreFault.failure

/-- The hook by which a schema file is read again when it is saved. -/
def schemaHook : Hook (StateM (Session setting)) where
  event := .saved
  name := "_on_schema_file_saved"
  run notice := do
    let session ← get
    settle (session.store.saved session.machine notice.uri)

/-- The hooks of a session. -/
def hooks : List (Hook (StateM (Session setting))) :=
  schemaHook :: Provider.publishingHooks report send providers

/-- Starts a session: finds the workspace and loads the catalog. -/
def start (introduction : Introduction) : StateM (Session setting) (Except Failure Unit) := do
  match introduction.root? with
  | .error error => return .error ⟨"ValueError", error.message⟩
  | .ok root? =>
    modify fun session => { session with root? }
    match root? with
    | some root => report ⟨.info, "Workspace root: " ++ root.text⟩
    | none => pure ()
    modify fun session =>
      { session with prefersTree := Introduction.prefersTree introduction.options }
    let session ← get
    settle (session.store.load session.machine introduction.options root?)

/-- A document is opened with a text, if it can be under its URI. -/
def opened (uri : String) (version : Int) (text : String) :
    StateM (Session setting) (Except Failure Unit) := do
  match setting.accepts uri with
  | .error failure => return .error failure
  | .ok () =>
    modify fun session => session.withDocument uri text
    report ⟨.log, "Document opened: " ++ uri⟩
    broadcast report hooks ⟨.opened, uri, some version⟩
    return .ok ()

/-- The text of a document is replaced by each of several texts in turn. -/
def changed (uri : String) (version : Int) (texts : List String) :
    StateM (Session setting) (Except Failure Unit) := do
  let session ← get
  if !texts.isEmpty && !session.isOpen uri then return .error ⟨"KeyError", setting.key uri⟩
  texts.forM fun text => modify fun session => session.withDocument uri text
  broadcast report hooks ⟨.changed, uri, some version⟩
  return .ok ()

/-- A document has been saved. -/
def saved (uri : String) : StateM (Session setting) Unit := do
  report ⟨.log, "Document saved: " ++ uri⟩
  broadcast report hooks ⟨.saved, uri, none⟩

/-- A document is closed, and is no longer known to be open when the hooks run. -/
def closed (uri : String) : StateM (Session setting) Unit := do
  modify fun session => session.withoutDocument uri
  report ⟨.log, "Document closed: " ++ uri⟩
  broadcast report hooks ⟨.closed, uri, none⟩

/-- The completions at a position of a document. -/
def completions (request : CompletionRequest) : StateM (Session setting) (List Completion.Item) :=
  Provider.completions report providers request

/-- The semantic tokens of a document. -/
def semanticTokens? (uri : String) : StateM (Session setting) (Option (List Int)) :=
  Provider.semanticTokens? report providers uri

end Session

end CypherAssist
