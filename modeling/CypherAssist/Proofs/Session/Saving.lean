import CypherAssist.Proofs.Session.Publishing
import CypherAssist.Proofs.Workspace.FileUri

/-! Saving a document of a session. The schema file is told apart from all others by the URI that
comes with the notice: a URI made from its path is recognised, and where no path goes up again, a
URI made from another path is not. -/
namespace CypherAssist.Session
open Client Schema Workspace

variable {setting : Setting} {session : Session setting} {path file : Path} {uri : String}

/-- What the log of a failure to handle a saved document adds. -/
def savingFailures {α : Type} (setting : Setting) (result : Except StoreFault α) : List Message :=
  match result with
  | .ok _ => []
  | .error fault => [hookFailure .saved (@schemaHook setting).name fault.failure]

/-- A session to which a saved document has been announced, with the store that an operation leaves
and all that is logged. -/
def withSaved {α : Type} (session : Session setting) (uri : String) (outcome : Outcome α) :
    Session setting :=
  { session with
    store := outcome.store
    log := session.log ++ [⟨.log, "Document saved: " ++ uri⟩] ++ outcome.log ++
      savingFailures setting outcome.result }

/-- The store alone deals with a document that is saved. -/
theorem step_saved (session : Session setting) (uri : String) :
    session.step (.saved uri) =
      session.withSaved uri (session.store.saved session.machine uri) := by
  let greeted : Session setting :=
    { session with log := session.log ++ [⟨.log, "Document saved: " ++ uri⟩] }
  have reached : session.step (.saved uri) =
      ((runHooks report ⟨.saved, uri, none⟩ [schemaHook]).run greeted).2 := rfl
  rw [reached, runHooks, withSaved]
  generalize told : session.store.saved session.machine uri = outcome
  have ran : (schemaHook.run ⟨.saved, uri, none⟩).run greeted =
      (outcome.result.mapError StoreFault.failure,
        { session with
          store := outcome.store
          log := session.log ++ [⟨.log, "Document saved: " ++ uri⟩] ++ outcome.log }) := by
    rw [← told]
    rfl
  rw [StateT.run_bind, ran]
  obtain ⟨store, log, result⟩ := outcome
  cases result with
  | ok =>
    rw [savingFailures, List.append_nil]
    rfl
  | error fault => rfl

/-- Only whether an operation fails is logged, not what it gives. -/
theorem withSaved_map {α β : Type} (session : Session setting) (uri : String) (outcome : Outcome α)
    (f : α → β) :
    session.withSaved uri { outcome with result := outcome.result.map f } =
      session.withSaved uri outcome := by
  obtain ⟨store, log, result⟩ := outcome
  cases result <;> rfl

/-- A document saved under a URI that can be read is compared by its place, if that and the place of
the file can be found. -/
theorem saved_of_pathOfUri? {store : Store} {machine : Machine} {place own : List Text.WideText}
    (set : store.file? = some file) (resolved : machine.files.resolve file = .ok own)
    (read : pathOfUri? uri = .ok path) (found : machine.files.resolve path = .ok place) :
    store.saved machine uri =
      if place = own then
        { store.reload machine with result := (store.reload machine).result.map fun _ => () }
      else { store, result := .ok () } := by
  simp [Store.saved, set, read, found, resolved]

/-- The URI of a path in normal form, whatever bytes the path has in UTF-8 and in whichever letter
case their digits are written, names that very path. So a notice that a document with this URI has
been saved makes the session read the schema file again if that is the path of the file; and it
leaves the store alone if the file has another path, and no path goes up again. -/
theorem saved_file_recognised (normal : path.Normal) (names : FileUri path uri) :
    Path.ofText path.text = path ∧ pathOfUri? uri = .ok path ∧
    ∀ (setting : Setting) (session : Session setting) (file : Path),
      session.store.file? = some file →
      (file = path → session.step (.saved uri) =
        session.withSaved uri (session.store.reload session.machine)) ∧
      (file.Normal → Path.parent ∉ file.parts → Path.parent ∉ path.parts → file ≠ path →
        session.step (.saved uri) =
          session.withSaved uri ({ store := session.store, result := .ok () } : Outcome Unit)) := by
  have read := Uri.pathOfUri?_of_fileUri normal names
  refine ⟨Path.ofText_text normal, read, fun setting session file set => ⟨?_, ?_⟩⟩
  · rintro rfl
    have found := Path.resolve_of_normal session.machine.files normal
    rw [step_saved, saved_of_pathOfUri? set found read found, if_pos rfl, withSaved_map]
  · intro fileNormal fileBelow below apart
    have found := Path.resolve_of_normal session.machine.files normal
    have own := Path.resolve_of_normal session.machine.files fileNormal
    have elsewhere : path.place (session.machine.files.current.map Name.text) ≠
        file.place (session.machine.files.current.map Name.text) := fun same =>
      apart (Path.eq_of_resolve fileNormal normal fileBelow below (by rw [own, found, same]))
    rw [step_saved, saved_of_pathOfUri? set own read found, if_neg elsewhere]

/-- The path has every mark that a URI would read, and an escape by its looks. Reading that as an
escape as well would name another path, which is not the one saved. -/
theorem marked_file_recognised :
    let path : Path := ⟨.root, ["a#b?", "%41é"]⟩
    let file : Path := ⟨.root, ["a#b?", "Aé"]⟩
    let uri := "file:///a%23b%3f/%2541%C3%a9"
    let watching (file : Path) : Session bareSetting :=
      { machine := bareMachine, store := { file? := some file } }
    path.Normal ∧ FileUri path uri ∧ pathOfUri? uri = .ok path ∧
      (watching path).step (.saved uri) =
        (watching path).withSaved uri ((watching path).store.reload bareMachine) ∧
      (watching file).step (.saved uri) = (watching file).withSaved uri
        ({ store := (watching file).store, result := .ok () } : Outcome Unit) := by
  intro path file uri watching
  have plain (text : String) (filled : '\x00' ∉ text.toList) : Plain text := fun point member => by
    obtain ⟨c, listed, rfl⟩ := List.mem_map.mp member
    exact ⟨c, rfl, fun null => filled (null ▸ listed)⟩
  have normal : path.Normal :=
    ⟨rfl, by decide, by decide, by
      simpa [path] using And.intro (plain "a#b?" (by decide)) (plain "%41é" (by decide))⟩
  have fileNormal : file.Normal :=
    ⟨rfl, by decide, by decide, by
      simpa [file] using And.intro (plain "a#b?" (by decide)) (plain "Aé" (by decide))⟩
  have names : FileUri path uri := by
    have bytes : Text.Utf8.encode "/a#b?/%41é".toList =
        [47, 97, 35, 98, 63, 47, 37, 52, 49, 195, 169] := by decide +kernel
    refine ⟨"/a#b?/%41é".toList, ['/', 'a', '%', '2', '3', 'b', '%', '3', 'f', '/', '%', '2', '5',
      '4', '1', '%', 'C', '3', '%', 'a', '9'], by decide +kernel, ?_, by decide +kernel⟩
    rw [bytes]
    repeat first
      | exact .nil
      | refine .plain (by decide) ?_
      | refine .escaped (by decide) (by decide) (by decide) ?_
  obtain ⟨-, read, notices⟩ := saved_file_recognised normal names
  refine ⟨normal, names, read, ?_, ?_⟩
  · exact (notices bareSetting (watching path) path rfl).1 rfl
  · exact (notices bareSetting (watching file) file rfl).2 fileNormal (by decide) (by decide)
      (by decide)

end CypherAssist.Session
