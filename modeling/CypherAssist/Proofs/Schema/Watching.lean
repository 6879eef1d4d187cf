import CypherAssist.Proofs.Schema.History

/-! A store that watches one file. Behind a load that selected a file, and as long as nothing else
is loaded, the store keeps to that file. What it remembers then always belongs to the catalog in
use, so that skipping a file of the same content is the same as reading it again. -/
namespace CypherAssist.Schema
open Workspace

/-- Whether an act is a load. -/
def Act.isLoad : Act → Bool
  | .load _ _ => true
  | _ => false

section
variable {host : Host} {act : Act} {acts : List Act} {path : Path}

theorem file?_of_reading {store : Store} {machine : Machine} {outcome : Outcome Bool}
    (reading : Reading store machine outcome) : outcome.store.file? = store.file? := by
  cases reading <;> rfl

theorem file?_reload (store : Store) (machine : Machine) :
    (store.reload machine).store.file? = store.file? :=
  file?_of_reading (reading_reload store machine)

/-- Only a load gives a store another file. -/
theorem file?_step (host : Host) (unloaded : act.isLoad = false) :
    (host.step act).store.file? = host.store.file? := by
  cases act with
  | work work => rfl
  | load options root? => cases unloaded
  | reload => exact file?_reload host.store host.machine
  | saved uri =>
    rw [Host.step]
    rcases saved_eq_reload_or_self host.store host.machine uri with again | alone
    · rw [again]
      exact file?_reload host.store host.machine
    · rw [alone]

theorem file?_after (unloaded : ∀ act ∈ acts, act.isLoad = false)
    (set : host.store.file? = some path) : (host.after acts).store.file? = some path := by
  induction acts generalizing host with
  | nil => exact set
  | cons act later ih =>
    obtain ⟨first, rest⟩ := List.forall_mem_cons.mp unloaded
    exact ih rest ((file?_step host first).trans set)

end

section
variable {machine : Machine} {options : Value} {root? : Option Path} {path : Path}
variable {acts : List Act}

theorem file?_load (store : Store)
    (selected : Source.select? machine options root? = .ok (.file path)) :
    (store.load machine options root?).store.file? = some path := by
  rw [load_eq, selected]
  exact file?_reload { store with file? := some path } machine

/-- A store that has loaded nothing but files remembers nothing but what it holds. -/
theorem faithful_after (selected : Source.select? machine options root? = .ok (.file path))
    (unloaded : ∀ act ∈ acts, act.isLoad = false) :
    let host := Host.after { machine } (.load options root? :: acts)
    host.store.Faithful host.machine.loader := by
  by_contra strays
  obtain ⟨earlier, overlay, place?, later, data, same, overlaid, -⟩ :=
    overlaid_of_not_faithful machine _ strays
  cases earlier with
  | nil =>
    -- the only load is the first act, and it selected a file
    cases same
    cases selected.symm.trans overlaid
  | cons first earlier =>
    obtain ⟨-, rfl⟩ := List.cons.inj same
    cases unloaded (.load overlay place?) (by simp)

/-- A store that has loaded a file, and nothing else, stays in step with it: after each reload, and
after each document saved that is the file, it holds the catalog of the file as it stands, unless
the file has a fault that is not reported and the store still holds an earlier catalog. Any other
document saved changes nothing. -/
theorem store_follows_file_iff
    (selected : Source.select? machine options root? = .ok (.file path))
    (unloaded : ∀ act ∈ acts, act.isLoad = false) :
    let host := Host.after { machine } (.load options root? :: acts)
    host.store.file? = some path ∧
    ((host.step .reload).store.catalog = Catalog.current host.machine path ↔
      ∀ fault, Catalog.ofFile? host.machine path = .error fault → fault.Escapes →
        host.store.catalog = {}) ∧
    ∀ uri,
      (LeadsTo host.machine.files uri path →
        (host.step (.saved uri)).store = (host.step .reload).store) ∧
      (¬ LeadsTo host.machine.files uri path →
        (host.step (.saved uri)).store = host.store) := by
  intro host
  have loaded : (Host.step { machine } (.load options root?)).store.file? = some path :=
    file?_load {} selected
  have set : host.store.file? = some path := by
    simpa [host] using file?_after unloaded loaded
  have faithful : host.store.Faithful host.machine.loader := faithful_after selected unloaded
  have current := @reload_current_iff host.store host.machine path (sound_after machine _) set
  refine ⟨set, current.trans (and_iff_right fun _ => faithful), fun uri => ⟨?_, ?_⟩⟩
  · exact saved_of_leadsTo set
  · intro elsewhere
    refine saved_of_not_leadsTo fun other there => ?_
    cases set.symm.trans there
    exact elsewhere

/-- A file that is written anew and saved is followed. -/
theorem saved_file_followed :
    let root : Path := ⟨.root, ["ws"]⟩
    let path := root.child [".cypherls", "schema.yml"]
    let persons := "labels: [Person]\n".toUTF8.toList
    let movies := "labels: [Movie]\n".toUTF8.toList
    let machine : Machine :=
      { files := ((Files.write path persons).on {}).2
        loader := .knowing
          [(persons, .ok (labelled (.text "Person"))), (movies, .ok (labelled (.text "Movie")))] }
    let host := Host.after { machine } [.load .null (some root), .work (Files.write path movies)]
    let saved := (host.step (.saved "file:///ws/.cypherls/schema.yml")).store
    saved.catalog = Catalog.current host.machine path ∧
      saved.catalog.labels = [Text.WideText.ofString "Movie"] := by
  intro root path persons movies machine host saved
  have found : sourceFile? machine .null (some root) = .ok (some path) := by decide +kernel
  have selected : Source.select? machine .null (some root) = .ok (.file path) := by
    rw [select?_of_absent rfl, found]
    rfl
  obtain ⟨-, follows, told⟩ := @store_follows_file_iff machine .null (some root) path
    [.work (Files.write path movies)] selected (by simp [Act.isLoad])
  have leads : LeadsTo host.machine.files "file:///ws/.cypherls/schema.yml" path :=
    ⟨path, [("ws" : Text.WideText), (".cypherls" : Text.WideText),
      ("schema.yml" : Text.WideText)], by decide +kernel, by decide +kernel, by decide +kernel⟩
  have described : (Catalog.ofFile? host.machine path).toBool = true := by decide +kernel
  have followed : saved = (host.step .reload).store := (told _).1 leads
  constructor
  · rw [followed]
    apply follows.mpr
    intro fault faulty
    rw [faulty] at described
    cases described
  · decide +kernel

/-- A file whose new content has a number that is too long for a name is not followed. The catalog
of the content before stays. -/
theorem long_name_not_followed :
    let root : Path := ⟨.root, ["ws"]⟩
    let path := root.child [".cypherls", "schema.yml"]
    let persons := "labels: [Person]\n".toUTF8.toList
    let long := "labels: [0x1".toUTF8.toList ++ List.replicate 3600 48 ++ "]\n".toUTF8.toList
    let loader := Loader.knowing [(persons, .ok (labelled (.text "Person"))),
      (long, .ok (labelled (.int (.ofNat (Nat.pow 16 3600)))))]
    let machine : Machine := { files := ((Files.write path persons).on {}).2, loader }
    let host := Host.after { machine } [.load .null (some root), .work (Files.write path long)]
    (host.step .reload).store.catalog.labels = [Text.WideText.ofString "Person"] ∧
      (Catalog.current host.machine path).labels = [] := by
  decide +kernel

end

end CypherAssist.Schema
