import CypherAssist.Session.State

/-! What a session publishes. Of all requests only those that open, change or close a document
publish anything, each of them one list for that document. So the last list published for a document
always belongs to its text, and is empty once the document is closed. -/
namespace CypherAssist.Session
open Client Schema Workspace

variable {setting : Setting}

/-- What can happen: work on the files, by whomever, and the requests of a client. -/
inductive Act where
  | work (work : Files.Work Unit)
  | start (introduction : Introduction)
  | opened (uri : String) (version : Int) (text : String)
  | changed (uri : String) (version : Int) (texts : List String)
  | saved (uri : String)
  | closed (uri : String)
  | completions (request : CompletionRequest)
  | semanticTokens (uri : String)

/-- A session behind an act. -/
def step (session : Session setting) : Act → Session setting
  | .work work =>
    { session with
      machine := { session.machine with files := (work.on session.machine.files).2 } }
  | .start introduction => ((start introduction).run session).2
  | .opened uri version text => ((opened uri version text).run session).2
  | .changed uri version texts => ((changed uri version texts).run session).2
  | .saved uri => ((saved uri).run session).2
  | .closed uri => ((closed uri).run session).2
  | .completions request => ((completions request).run session).2
  | .semanticTokens uri => ((semanticTokens? uri).run session).2

/-- A session before anything has happened. -/
def fresh (setting : Setting) (machine : Machine) : Session setting := { machine }

/-- A session behind several acts. -/
def after (session : Session setting) (acts : List Act) : Session setting := acts.foldl step session

@[simp] theorem after_append (session : Session setting) (earlier later : List Act) :
    session.after (earlier ++ later) = (session.after earlier).after later := by
  simp [after]

/-- A client changes and closes only what is open, and opens documents under URIs that will do. -/
def allows (session : Session setting) : Act → Prop
  | .opened uri _ _ => setting.accepts uri = .ok ()
  | .changed uri _ _ | .closed uri => session.isOpen uri
  | _ => True

/-- A client keeps to what is allowed, act after act. -/
def Regular (session : Session setting) : List Act → Prop
  | [] => True
  | act :: later => session.allows act ∧ (session.step act).Regular later

theorem regular_append {session : Session setting} {earlier later : List Act} :
    session.Regular (earlier ++ later) ↔
      session.Regular earlier ∧ (session.after earlier).Regular later := by
  induction earlier generalizing session with
  | nil => simp [Regular, after]
  | cons act rest ih =>
    rw [List.cons_append, Regular, ih, Regular, and_assoc]
    rfl

/-! ## Documents -/

/-- The text of a document that is open. -/
def held? (session : Session setting) (uri : String) : Option String :=
  session.documents.lookup (setting.key uri)

variable {session : Session setting} {uri other : String}

private theorem lookup_filter_ne {entries : List (String × String)} {key removed : String} :
    (entries.filter fun entry => entry.1 != removed).lookup key =
      if key = removed then none else entries.lookup key := by
  induction entries with
  | nil => simp
  | cons entry rest ih =>
    obtain ⟨name, text⟩ := entry
    rw [List.filter_cons]
    by_cases gone : name = removed
    · rw [if_neg (by simpa using gone), ih, List.lookup_cons]
      by_cases asked : key = removed
      · simp [asked]
      · have apart : (key == name) = false := by simpa [gone] using asked
        simp [asked, apart]
    · rw [if_pos (by simpa using gone), List.lookup_cons, List.lookup_cons]
      by_cases here : key = name
      · simp [here, gone]
      · have apart : (key == name) = false := by simpa using here
        simp [apart, ih]

theorem held?_withDocument (session : Session setting) (uri other text : String) :
    (session.withDocument uri text).held? other =
      if setting.key other = setting.key uri then some text else session.held? other := by
  rw [held?, withDocument, List.lookup_cons, lookup_filter_ne]
  by_cases same : setting.key other = setting.key uri
  · simp [same]
  · have apart : (setting.key other == setting.key uri) = false := by simpa using same
    simp [same, apart, held?]

theorem held?_withoutDocument (session : Session setting) (uri other : String) :
    (session.withoutDocument uri).held? other =
      if setting.key other = setting.key uri then none else session.held? other :=
  lookup_filter_ne

theorem isOpen_iff : session.isOpen uri ↔ ∃ text, session.held? uri = some text := by
  rw [isOpen, held?, ← Option.isSome_iff_exists, List.lookup_isSome_iff, List.any_eq_true]
  simp only [decide_eq_true_iff, beq_iff_eq, @eq_comm _ (setting.key uri)]

/-- The text of an open document is the one held, whatever is on the disk. -/
theorem text_of_held? {held : String} (found : session.held? uri = some held) :
    session.text uri = .ok held := by
  rw [held?] at found
  rw [text, found]

/-! ## Requests that publish nothing -/

/-- An action after which the same documents are open and nothing more has been published. -/
def Silent (setting : Setting) (action : StateM (Session setting) α) : Prop :=
  ∀ session, (action.run session).2.documents = session.documents ∧
    (action.run session).2.published = session.published

theorem silent_pure (value : α) : Silent setting (pure value) := fun _ => ⟨rfl, rfl⟩

theorem silent_bind {action : StateM (Session setting) α} {next : α → StateM (Session setting) β}
    (first : Silent setting action) (second : ∀ value, Silent setting (next value)) :
    Silent setting (action >>= next) := fun session => by
  have before := first session
  have behind := second (action.run session).1 (action.run session).2
  exact ⟨behind.1.trans before.1, behind.2.trans before.2⟩

theorem silent_get : Silent setting get := fun _ => ⟨rfl, rfl⟩

theorem silent_report (message : Message) : Silent setting (report message) := fun _ => ⟨rfl, rfl⟩

theorem silent_settle (outcome : Outcome α) : Silent setting (settle outcome) := fun _ => ⟨rfl, rfl⟩

/-- A provider that publishes nothing, however it answers. -/
structure SilentAnswerer (answerer : Answerer (StateM (Session setting)) Request Answer) :
    Prop where
  accepts : ∀ request, Silent setting (answerer.accepts request)
  answer : ∀ request, Silent setting (answerer.answer request)

theorem silent_fromText (name : Request → String)
    (answer : Session setting → Request → String → Option Answer) :
    SilentAnswerer (fromText name answer) :=
  ⟨fun _ _ => ⟨rfl, rfl⟩, fun _ _ => ⟨rfl, rfl⟩⟩

theorem silent_ask {answerer : Answerer (StateM (Session setting)) Request Answer}
    (silent : SilentAnswerer answerer) (request : Request) :
    Silent setting (answerer.ask request) := by
  refine silent_bind (silent.accepts request) fun accepted => ?_
  rcases accepted with failure | _ | _
  · exact silent_pure _
  · exact silent_pure _
  · exact silent.answer request

/-- Asking silent providers for the first answer is silent: a failure is only logged. -/
theorem silent_firstAnswer
    {named : List (String × Answerer (StateM (Session setting)) Request Answer)}
    (silent : ∀ entry ∈ named, SilentAnswerer entry.2) (action : String) (request : Request) :
    Silent setting (Answerer.firstAnswer report action request named) := by
  induction named with
  | nil => exact silent_pure none
  | cons entry rest ih =>
    obtain ⟨first, others⟩ := List.forall_mem_cons.mp silent
    refine silent_bind (silent_bind (silent_ask first request) fun answer => ?_) fun answer? => ?_
    · cases answer with
      | ok answer? => exact silent_pure answer?
      | error failure => exact silent_bind (silent_report _) fun _ => silent_pure none
    · cases answer? with
      | some answer => exact silent_pure (some answer)
      | none => exact ih others

theorem silent_completions (request : CompletionRequest) :
    Silent setting (completions request) := by
  refine silent_bind (silent_firstAnswer (fun entry member => ?_) _ _) fun _ => silent_pure _
  have listed : entry ∈ [(cypherCompletion.name, fromText CompletionRequest.uri _),
      (wordCompletion.name, fromText CompletionRequest.uri _)] := member
  simp only [List.mem_cons, List.not_mem_nil, or_false] at listed
  rcases listed with rfl | rfl <;> exact silent_fromText ..

theorem silent_semanticTokens? (uri : String) : Silent setting (semanticTokens? uri) := by
  refine silent_firstAnswer (fun entry member => ?_) _ _
  have listed : entry ∈ [(highlighting.name, fromText id _)] := member
  cases List.mem_singleton.mp listed
  exact silent_fromText ..

theorem silent_runHooks {hooks : List (Hook (StateM (Session setting)))} {notice : Notice}
    (silent : ∀ hook ∈ hooks, Silent setting (hook.run notice)) :
    Silent setting (runHooks report notice hooks) := by
  induction hooks with
  | nil => exact silent_pure ()
  | cons hook rest ih =>
    obtain ⟨first, others⟩ := List.forall_mem_cons.mp silent
    refine silent_bind first fun outcome => ?_
    cases outcome with
    | ok => exact ih others
    | error failure => exact silent_bind (silent_report _) fun _ => ih others

/-- Only the schema listens to what is saved. -/
theorem silent_saved (uri : String) : Silent setting (saved uri) := by
  refine silent_bind (silent_report _) fun _ => silent_runHooks fun hook member => ?_
  have listed : hook ∈ [schemaHook] := member
  cases List.mem_singleton.mp listed
  exact silent_bind silent_get fun _ => silent_settle _

theorem silent_start (introduction : Introduction) : Silent setting (start introduction) := by
  rw [start]
  cases introduction.root? with
  | error error => exact silent_pure _
  | ok root? =>
    refine silent_bind (fun _ => ⟨rfl, rfl⟩) fun _ => ?_
    cases root? with
    | some root =>
      exact silent_bind (silent_report _) fun _ => silent_bind (fun _ => ⟨rfl, rfl⟩) fun _ =>
        silent_bind silent_get fun _ => silent_settle _
    | none =>
      exact silent_bind (fun _ => ⟨rfl, rfl⟩) fun _ =>
        silent_bind silent_get fun _ => silent_settle _

/-! ## Requests that publish -/

/-- Publishing for an open document adds one list to what has been published, that of its text. -/
theorem run_publish {held : String} (version? : Option Int)
    (found : session.held? uri = some held) :
    ((Provider.publish report send providers uri version?).run session).2 =
      { session with
        published := session.published ++
          [⟨uri, version?, Diagnostic.ofText setting.limits held⟩] } := by
  have read := text_of_held? found
  have collected : (Provider.diagnostics report providers uri).run session =
      (Diagnostic.ofText setting.limits held, session) := by
    have checkers : Provider.checkers providers =
        [(syntaxCheck.name, fromText id fun _ _ text =>
          some (Diagnostic.ofText setting.limits text))] := rfl
    rw [Provider.diagnostics, checkers]
    simp only [Answerer.allAnswers, Answerer.askReporting, Answerer.ask, fromText, StateT.run_bind,
      StateT.run_pure, StateT.run_get, pure_bind, id, read, Except.map, Option.getD_some,
      List.append_nil]
    rfl
  simp [Provider.publish, collected, send, Functor.map]

/-- Opening a document sets its text and publishes for it. -/
theorem step_opened (accepted : setting.accepts uri = .ok ()) (version : Int) (text : String) :
    (session.step (.opened uri version text)).documents =
        (session.withDocument uri text).documents ∧
      (session.step (.opened uri version text)).published =
        session.published ++ [⟨uri, some version, Diagnostic.ofText setting.limits text⟩] := by
  let greeted : Session setting := { session.withDocument uri text with
    log := session.log ++ [⟨.log, "Document opened: " ++ uri⟩] }
  have reached : session.step (.opened uri version text) =
      ((Provider.publish report send providers uri (some version)).run greeted).2 := by
    rw [step, opened, accepted]
    rfl
  have current : greeted.held? uri = some text :=
    (held?_withDocument session uri uri text).trans (if_pos rfl)
  rw [reached, run_publish _ current]
  exact ⟨rfl, rfl⟩

/-- A session after the text of a document has been replaced by each of several texts in turn. -/
def revise (session : Session setting) (uri : String) (texts : List String) : Session setting :=
  texts.foldl (fun session text => session.withDocument uri text) session

/-- The last of the texts stays, if there is one. -/
theorem held?_revise (session : Session setting) (uri other : String) (texts : List String) :
    (session.revise uri texts).held? other =
      if setting.key other = setting.key uri then texts.getLast?.or (session.held? other)
      else session.held? other := by
  induction texts generalizing session with
  | nil => simp [revise]
  | cons text rest ih =>
    rw [revise, List.foldl_cons, ← revise, ih, held?_withDocument]
    by_cases same : setting.key other = setting.key uri
    · cases rest with
      | nil => simp [same]
      | cons => simp [same, List.getLast?_cons]
    · simp [same]

theorem published_revise (session : Session setting) (uri : String) (texts : List String) :
    (session.revise uri texts).published = session.published := by
  induction texts generalizing session with
  | nil => rfl
  | cons text rest ih => exact ih (session.withDocument uri text)

theorem run_forM_withDocument (texts : List String) :
    (texts.forM fun text => modify fun session => session.withDocument uri text : StateM _ _).run
        session = ((), session.revise uri texts) := by
  induction texts generalizing session with
  | nil => rfl
  | cons text rest ih => exact ih

/-- A change of an open document leaves it open, and publishes for the text it then has. -/
theorem step_changed {held : String} (version : Int) (texts : List String)
    (found : session.held? uri = some held) :
    (session.step (.changed uri version texts)).documents =
        (session.revise uri texts).documents ∧
      (session.step (.changed uri version texts)).published =
        session.published ++
          [⟨uri, some version, Diagnostic.ofText setting.limits (texts.getLast?.getD held)⟩] := by
  have isOpen : session.isOpen uri = true := isOpen_iff.mpr ⟨held, found⟩
  have reached : session.step (.changed uri version texts) =
      ((Provider.publish report send providers uri (some version)).run
        (session.revise uri texts)).2 := by
    have allowed : (!texts.isEmpty && !session.isOpen uri) = false := by simp [isOpen]
    rw [step, changed]
    simp only [StateT.run_bind, StateT.run_get, pure_bind, allowed, Bool.false_eq_true, if_false,
      run_forM_withDocument]
    rfl
  have current : (session.revise uri texts).held? uri = some (texts.getLast?.getD held) := by
    rw [held?_revise, if_pos rfl, found]
    cases texts.getLast? <;> rfl
  rw [reached, run_publish _ current, published_revise]
  exact ⟨rfl, rfl⟩

/-- Closing a document forgets it and takes back what was published for it. -/
theorem step_closed (session : Session setting) (uri : String) :
    (session.step (.closed uri)).documents = (session.withoutDocument uri).documents ∧
      (session.step (.closed uri)).published = session.published ++ [⟨uri, none, []⟩] :=
  ⟨rfl, rfl⟩

/-! ## Runs -/

/-- What an act publishes, by the documents that are open behind it: opening and changing a document
publish the diagnostics of the text it now has, in the version of the act; closing it publishes that
there are none, in no version; all else publishes nothing. -/
inductive Announces (now : Session setting) : Act → List Publication → Prop where
  | opened {uri held : String} (current : now.held? uri = some held) :
    Announces now (.opened uri version given)
      [⟨uri, some version, Diagnostic.ofText setting.limits held⟩]
  | changed {uri held : String} (current : now.held? uri = some held) :
    Announces now (.changed uri version given)
      [⟨uri, some version, Diagnostic.ofText setting.limits held⟩]
  | closed {uri : String} (gone : now.held? uri = none) :
    Announces now (.closed uri) [⟨uri, none, []⟩]
  | work : Announces now (.work work) []
  | start : Announces now (.start introduction) []
  | saved {uri : String} : Announces now (.saved uri) []
  | completions : Announces now (.completions request) []
  | semanticTokens {uri : String} : Announces now (.semanticTokens uri) []

/-- What was last published for a document, under whichever spelling of its URI. -/
def told? (session : Session setting) (uri : String) : Option Publication :=
  session.published.reverse.find? fun publication =>
    setting.key publication.uri = setting.key uri

/-- What is to be shown for a document: the diagnostics of its text while it is open, then none. -/
def due (session : Session setting) (uri : String) : List Diagnostic :=
  (session.held? uri).elim [] (Diagnostic.ofText setting.limits)

/-- What a client has been told is what is due, and of open documents it has been told. -/
structure InStep (session : Session setting) : Prop where
  told : ∀ uri, (session.held? uri).isSome → (session.told? uri).isSome
  current : ∀ uri publication, session.told? uri = some publication →
    publication.diagnostics = session.due uri

/-- An act has published what it should, and what a client has been told is in step behind it. -/
structure Settles (session : Session setting) (act : Act) (now : Session setting) : Prop where
  announces : ∃ batch, Announces now act batch ∧ now.published = session.published ++ batch
  inStep : InStep now

section
variable {now : Session setting} {act : Act}

theorem settles_of_silent (inStep : InStep session) (announces : Announces now act [])
    (silent : now.documents = session.documents ∧ now.published = session.published) :
    Settles session act now := by
  obtain ⟨documents, published⟩ := silent
  have held (uri : String) : now.held? uri = session.held? uri := by rw [held?, held?, documents]
  have told (uri : String) : now.told? uri = session.told? uri := by rw [told?, told?, published]
  refine ⟨⟨[], announces, by rw [published, List.append_nil]⟩, fun uri found => ?_,
    fun uri publication last => ?_⟩
  · rw [told]
    exact inStep.told uri (held uri ▸ found)
  · rw [due, held]
    exact inStep.current uri publication (told uri ▸ last)

/-- A list published for a document changes what was told for that document alone. It keeps step if
it is what is due there now and the other documents are left as they are. -/
theorem settles_of_published {publication : Publication} (inStep : InStep session)
    (announces : Announces now act [publication])
    (published : now.published = session.published ++ [publication])
    (held : ∀ uri, now.held? uri =
      if setting.key uri = setting.key publication.uri then here else session.held? uri)
    (same : publication.diagnostics = here.elim [] (Diagnostic.ofText setting.limits)) :
    Settles session act now := by
  have told (uri : String) : now.told? uri =
      if setting.key uri = setting.key publication.uri then some publication
      else session.told? uri := by
    rw [told?, published, List.reverse_concat, List.find?_cons, told?]
    by_cases this : setting.key uri = setting.key publication.uri <;> simp [this, eq_comm]
  refine ⟨⟨_, announces, published⟩, fun uri found => ?_, fun uri last toldLast => ?_⟩
  · rw [told]
    rw [held] at found
    split
    · rfl
    · rename_i apart
      exact inStep.told uri (by rwa [if_neg apart] at found)
  · rw [told] at toldLast
    rw [due, held]
    split at toldLast
    · rename_i this
      cases toldLast
      rw [if_pos this, same]
    · rename_i apart
      rw [if_neg apart]
      exact inStep.current uri last toldLast

end

/-- Each act that is allowed publishes what it should and keeps what was told in step. -/
theorem settles_step (inStep : InStep session) (act : Act) (allowed : session.allows act) :
    Settles session act (session.step act) := by
  cases act with
  | work work => exact settles_of_silent inStep .work ⟨rfl, rfl⟩
  | start introduction =>
    exact settles_of_silent inStep .start (silent_start introduction session)
  | saved uri => exact settles_of_silent inStep .saved (silent_saved uri session)
  | completions request =>
    exact settles_of_silent inStep .completions (silent_completions request session)
  | semanticTokens uri =>
    exact settles_of_silent inStep .semanticTokens (silent_semanticTokens? uri session)
  | opened uri version text =>
    obtain ⟨documents, published⟩ := step_opened allowed version text
    have held (other : String) : (session.step (.opened uri version text)).held? other =
        if setting.key other = setting.key uri then some text else session.held? other := by
      rw [← held?_withDocument, held?, documents, held?]
    exact settles_of_published inStep (.opened ((held uri).trans (if_pos rfl))) published held rfl
  | changed uri version texts =>
    obtain ⟨before, found⟩ := isOpen_iff.mp allowed
    obtain ⟨documents, published⟩ := step_changed version texts found
    have held (other : String) : (session.step (.changed uri version texts)).held? other =
        if setting.key other = setting.key uri then some (texts.getLast?.getD before)
        else session.held? other := by
      rw [held?, documents, ← held?, held?_revise]
      split
      · rename_i same
        rw [show session.held? other = some before by rw [held?, same]; exact found]
        cases texts.getLast? <;> rfl
      · rfl
    exact settles_of_published inStep (.changed ((held uri).trans (if_pos rfl))) published held rfl
  | closed uri =>
    obtain ⟨documents, published⟩ := step_closed session uri
    have held (other : String) : (session.step (.closed uri)).held? other =
        if setting.key other = setting.key uri then none else session.held? other := by
      rw [← held?_withoutDocument, held?, documents, held?]
    exact settles_of_published inStep (.closed ((held uri).trans (if_pos rfl))) published held rfl

/-- Whatever is allowed keeps what was told in step. -/
theorem inStep_after {acts : List Act} (inStep : InStep session) (regular : session.Regular acts) :
    InStep (session.after acts) := by
  induction acts generalizing session with
  | nil => exact inStep
  | cons act later ih => exact ih (settles_step inStep act regular.1).inStep regular.2

/-- Registering the providers of a session adds the hooks that publish, once and for all. -/
theorem register_hooks (session : Session setting) :
    (Registry.register report send ⟨providers, some [schemaHook], false⟩).run session =
        (⟨providers, some hooks, true⟩, session) ∧
      (Registry.register report send ⟨providers, some hooks, true⟩).run session =
        (⟨providers, some hooks, true⟩, session) :=
  ⟨rfl, rfl⟩

/-- In every run of a session in which a client keeps to what is allowed, each act publishes what it
should: one list for a document that is opened or changed, with the diagnostics of its text, one
empty list for a document that is closed, and nothing else. So at every point the list last
published for a document is that of its text while it is open, and empty once it is closed; under a
URI that is spelled in one way only it is the list last published under that very URI. The hooks
that do so are those that registering the providers once, or again, leaves beside the one of the
schema. -/
theorem published_in_step (setting : Setting) (machine : Machine) (acts : List Act)
    (regular : Regular (fresh setting machine) acts) :
    (∀ earlier act later, acts = earlier ++ act :: later → ∃ batch,
      Announces (after (fresh setting machine) (earlier ++ [act])) act batch ∧
        (after (fresh setting machine) (earlier ++ [act])).published =
          (after (fresh setting machine) earlier).published ++ batch) ∧
    (∀ earlier later, acts = earlier ++ later → InStep (after (fresh setting machine) earlier) ∧
      ∀ uri, (∀ publication ∈ (after (fresh setting machine) earlier).published,
          setting.key publication.uri = setting.key uri → publication.uri = uri) →
        (after (fresh setting machine) earlier).told? uri =
          (after (fresh setting machine) earlier).published.reverse.find? fun publication =>
            publication.uri = uri) ∧
    ∀ session : Session setting,
      (Registry.register report send ⟨providers, some [schemaHook], false⟩).run session =
          (⟨providers, some hooks, true⟩, session) ∧
        (Registry.register report send ⟨providers, some hooks, true⟩).run session =
          (⟨providers, some hooks, true⟩, session) := by
  have initial : InStep (fresh setting machine) :=
    ⟨fun _ found => (by cases found), fun _ _ told => (by cases told)⟩
  refine ⟨fun earlier act later split => ?_, fun earlier later split => ⟨?_, fun uri alone => ?_⟩,
    register_hooks⟩
  · rw [split, regular_append] at regular
    obtain ⟨before, allowed, -⟩ := regular
    rw [after_append]
    exact (settles_step (inStep_after initial before) act allowed).announces
  · rw [split, regular_append] at regular
    exact inStep_after initial regular.1
  · rw [told?, ← List.head?_filter, ← List.head?_filter]
    refine congrArg List.head? (List.filter_congr fun publication member => ?_)
    have spelled := alone publication (List.mem_reverse.mp member)
    exact decide_eq_decide.mpr ⟨spelled, fun same => by rw [same]⟩

/-- A setting in which every URI is a key by itself and documents have no files. -/
def bareSetting : Setting where
  limits := ⟨3000, 3000⟩
  key := id
  accepts _ := .ok ()
  fileText _ _ := .error ⟨"FileNotFoundError", "[Errno 2] No such file or directory"⟩

/-- A machine without files. -/
def bareMachine : Machine := { files := {}, loader := fun _ => .ok {} }

/-- A document is opened, changed and closed again: what was last published for it is first that of
its new text and then nothing. -/
theorem change_published :
    let start := fresh bareSetting bareMachine
    let edits : List Act := [.opened "file:///q" 1 "RETURN", .changed "file:///q" 2 ["RETURN 1"]]
    start.Regular (edits ++ [.closed "file:///q"]) ∧
      (∃ publication, (start.after edits).told? "file:///q" = some publication ∧
        publication.diagnostics = Diagnostic.ofText bareSetting.limits "RETURN 1") ∧
      ∀ publication, (start.after (edits ++ [.closed "file:///q"])).told? "file:///q" =
        some publication → publication.diagnostics = [] := by
  intro start edits
  have regular : start.Regular (edits ++ [.closed "file:///q"]) := by
    refine ⟨rfl, ?_, ?_, trivial⟩ <;> (show Session.isOpen _ _ = true; decide +kernel)
  obtain ⟨-, inStep, -⟩ := published_in_step bareSetting bareMachine _ regular
  refine ⟨regular, ?_, fun publication last => ?_⟩
  · obtain ⟨⟨told, current⟩, -⟩ := inStep edits [.closed "file:///q"] rfl
    have held : (start.after edits).held? "file:///q" = some "RETURN 1" := by decide +kernel
    obtain ⟨publication, last⟩ := Option.isSome_iff_exists.mp (told "file:///q" (by
      rw [show fresh bareSetting bareMachine = start from rfl, held]
      rfl))
    exact ⟨publication, last, by
      rw [current _ _ last, due, show fresh bareSetting bareMachine = start from rfl, held]
      rfl⟩
  · have gone : (start.after (edits ++ [.closed "file:///q"])).held? "file:///q" = none := by
      decide +kernel
    rw [(inStep _ [] (List.append_nil _).symm).1.current _ _ last, due,
      show fresh bareSetting bareMachine = start from rfl, gone]
    rfl

end CypherAssist.Session
