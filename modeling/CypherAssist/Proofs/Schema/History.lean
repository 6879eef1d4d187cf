import CypherAssist.Proofs.Schema.Loading
import Mathlib.Data.List.Induction

/-! Histories of stores. A store lives on a machine whose files change under it, and is loaded, read
again and told of documents that are saved, in any order. Whatever has happened, the content that it
remembers describes a catalog, and that is the catalog in use unless one from the options has been
put over it since. -/
namespace CypherAssist.Schema
open Workspace

/-- A store and the machine it lives on. -/
structure Host where
  machine : Machine
  store : Store := {}

/-- What can happen: work on the files, by whomever, and the operations on the store. -/
inductive Act where
  | work (work : Files.Work Unit)
  | load (options : Value) (root? : Option Path)
  | reload
  | saved (uri : String)

namespace Host

/-- A host behind an act. -/
def step (host : Host) : Act → Host
  | .work work =>
    { host with machine := { host.machine with files := (work.on host.machine.files).2 } }
  | .load options root? =>
    { host with store := (host.store.load host.machine options root?).store }
  | .reload => { host with store := (host.store.reload host.machine).store }
  | .saved uri => { host with store := (host.store.saved host.machine uri).store }

/-- A host behind a history of acts. -/
def after (host : Host) (acts : List Act) : Host := acts.foldl step host

@[simp] theorem after_nil (host : Host) : host.after [] = host := rfl

@[simp] theorem after_cons (host : Host) (act : Act) (later : List Act) :
    host.after (act :: later) = (host.step act).after later := rfl

@[simp] theorem after_append (host : Host) (earlier later : List Act) :
    host.after (earlier ++ later) = (host.after earlier).after later := by
  simp [after]

@[simp] theorem loader_step (host : Host) (act : Act) :
    (host.step act).machine.loader = host.machine.loader := by
  cases act <;> rfl

end Host

/-! ## Documents that are saved -/

/-- A URI leads to a path when it names the same place. -/
def LeadsTo (files : Files) (uri : String) (path : Path) : Prop :=
  ∃ saved place, pathOfUri? uri = .ok saved ∧ files.resolve saved = .ok place ∧
    files.resolve path = .ok place

section
variable {store : Store} {machine : Machine} {path : Path} {uri : String}

/-- Saving the file of a store reads it again. -/
theorem saved_of_leadsTo (set : store.file? = some path)
    (leads : LeadsTo machine.files uri path) :
    (store.saved machine uri).store = (store.reload machine).store := by
  obtain ⟨saved, place, read, found, own⟩ := leads
  simp [Store.saved, set, read, found, own]

/-- Saving any other document leaves the store alone. -/
theorem saved_of_not_leadsTo
    (elsewhere : ∀ path, store.file? = some path → ¬ LeadsTo machine.files uri path) :
    (store.saved machine uri).store = store := by
  unfold Store.saved
  split
  · rfl
  rename_i path set
  split
  · rfl
  rename_i saved read
  split
  · rfl
  · rfl
  rename_i place ownPlace found own
  split
  · rename_i same
    exact absurd ⟨saved, ownPlace, read, same ▸ found, own⟩ (elsewhere path set)
  · rfl

/-- Saving a document reads the file of the store again, or leaves the store alone. -/
theorem saved_eq_reload_or_self (store : Store) (machine : Machine) (uri : String) :
    (store.saved machine uri).store = (store.reload machine).store ∨
      (store.saved machine uri).store = store := by
  by_cases leads : ∃ path, store.file? = some path ∧ LeadsTo machine.files uri path
  · obtain ⟨path, set, there⟩ := leads
    exact .inl (saved_of_leadsTo set there)
  · exact .inr (saved_of_not_leadsTo fun path set there => leads ⟨path, set, there⟩)

end

/-! ## What an act does to a store -/

/-- How an act changes what a store holds and remembers: it keeps both, replaces both at once, or
puts a catalog from the options over what is remembered. -/
inductive Moves (host : Host) (act : Act) : Store → Prop where
  | kept {after : Store} (catalog : after.catalog = host.store.catalog)
      (content : after.content? = host.store.content?) : Moves host act after
  | read {after : Store} {bytes : List UInt8} (content : after.content? = some bytes)
      (described : Catalog.ofBytes? host.machine.loader bytes = .ok after.catalog) :
      Moves host act after
  | emptied {after : Store} (catalog : after.catalog = {}) (content : after.content? = none) :
      Moves host act after
  | overlaid {after : Store} {options data : Value} {root? : Option Path}
      (loads : act = .load options root?)
      (selected : Source.select? host.machine options root? = .ok (.inline data))
      (catalog : after.catalog = (Source.inline data).catalog host.machine)
      (content : after.content? = host.store.content?) : Moves host act after

theorem moves_of_reading {host : Host} {act : Act} {store : Store} {outcome : Outcome Bool}
    (reading : Reading store host.machine outcome)
    (catalog : store.catalog = host.store.catalog)
    (content : store.content? = host.store.content?) : Moves host act outcome.store := by
  cases reading with
  | idle | same | broken => exact .kept catalog content
  | loaded set found described => exact .read rfl described
  | emptied => exact .emptied rfl rfl

theorem moves_load (host : Host) (options : Value) (root? : Option Path) :
    Moves host (.load options root?) (host.store.load host.machine options root?).store := by
  rw [load_eq]
  cases selected : Source.select? host.machine options root? with
  | error fault => exact .kept rfl rfl
  | ok source =>
    cases source with
    | nowhere => exact .kept rfl rfl
    | file path => exact moves_of_reading (reading_reload _ host.machine) rfl rfl
    | inline data =>
      rcases described : Catalog.ofData? data with (error | _) | catalog <;> simp only [described]
      · exact .overlaid rfl selected (by simp [described]) rfl
      · exact .kept rfl rfl
      · exact .overlaid rfl selected (by simp [described]) rfl

theorem moves_step (host : Host) (act : Act) : Moves host act (host.step act).store := by
  cases act with
  | work work => exact .kept rfl rfl
  | load options root? => exact moves_load host options root?
  | reload => exact moves_of_reading (reading_reload _ _) rfl rfl
  | saved uri =>
    rw [Host.step]
    rcases saved_eq_reload_or_self host.store host.machine uri with again | alone
    · rw [again]
      exact moves_of_reading (reading_reload _ _) rfl rfl
    · rw [alone]
      exact .kept rfl rfl

/-! ## What a history leaves -/

theorem sound_step {host : Host} (sound : host.store.Sound host.machine.loader) (act : Act) :
    (host.step act).store.Sound (host.step act).machine.loader := by
  intro bytes known
  rw [Host.loader_step]
  cases moves_step host act with
  | kept catalog content => exact sound bytes (content ▸ known)
  | read content described =>
    cases content.symm.trans known
    exact ⟨_, described⟩
  | emptied catalog content => cases content.symm.trans known
  | overlaid loads selected catalog content => exact sound bytes (content ▸ known)

/-- Whatever has happened, the content that a store remembers describes a catalog. -/
theorem sound_after (machine : Machine) (acts : List Act) :
    let host := Host.after { machine } acts
    host.store.Sound host.machine.loader := by
  induction acts using List.reverseRecOn with
  | nil => simp [Store.Sound]
  | append_singleton acts act ih =>
    rw [Host.after_append]
    exact sound_step ih act

/-- A store that holds another catalog than the content it remembers describes has it from options
that were loaded over that content. -/
theorem overlaid_of_not_faithful (machine : Machine) (acts : List Act)
    (strays : ¬ (Host.after { machine } acts).store.Faithful
      (Host.after { machine } acts).machine.loader) :
    ∃ earlier options root? later data, acts = earlier ++ .load options root? :: later ∧
      Source.select? (Host.after { machine } earlier).machine options root? = .ok (.inline data) ∧
      (Host.after { machine } acts).store.catalog =
        (Source.inline data).catalog (Host.after { machine } earlier).machine ∧
      (Host.after { machine } acts).store.content? =
        (Host.after { machine } earlier).store.content? := by
  induction acts using List.reverseRecOn with
  | nil => simp [Store.Faithful] at strays
  | append_singleton acts act ih =>
    rw [Host.after_append, Host.after_cons, Host.after_nil] at strays ⊢
    rw [Host.loader_step] at strays
    cases moves_step (Host.after { machine } acts) act with
    | kept catalog content =>
      -- it strayed before, and nothing has changed since the load that made it stray
      obtain ⟨earlier, options, root?, later, data, rfl, selected, holds, knows⟩ :=
        ih fun faithful => strays fun bytes known => by
          rw [catalog]
          exact faithful bytes (content ▸ known)
      exact ⟨earlier, options, root?, later ++ [act], data, by simp, selected, catalog.trans holds,
        content.trans knows⟩
    | read content described =>
      refine absurd (fun bytes known => ?_) strays
      cases content.symm.trans known
      exact described
    | emptied catalog content =>
      exact absurd (fun bytes known => by cases content.symm.trans known) strays
    | overlaid loads selected catalog content =>
      exact ⟨acts, _, _, [], _, by rw [loads], selected, catalog, content⟩

/-! ## What loads and reloads come to -/

/-- Whatever has happened, a load leaves the catalog that options, workspace and files determine,
with three exceptions in which the history shows: where it breaks off and where there is no source
it keeps the catalog that is there, and a file whose content the store remembers is skipped though
a catalog from the options has been put over that content since. -/
theorem load_forgets_iff (machine : Machine) (acts : List Act) (options : Value)
    (root? : Option Path) :
    let host := Host.after { machine } acts
    ((host.store.load host.machine options root?).store.catalog =
        Catalog.determined host.machine options root? ↔
      ((∃ fault, Breaks host.machine options root? fault) → host.store.catalog = {}) ∧
      (Source.select? host.machine options root? = .ok .nowhere → host.store.catalog = {}) ∧
      ∀ path, Source.select? host.machine options root? = .ok (.file path) →
        host.store.content? = (host.machine.files.read path).toOption →
          host.store.Faithful host.machine.loader) ∧
    (¬ host.store.Faithful host.machine.loader → ∃ earlier overlay place? later data,
      acts = earlier ++ .load overlay place? :: later ∧
      Source.select? (Host.after { machine } earlier).machine overlay place? =
        .ok (.inline data) ∧
      host.store.catalog =
        (Source.inline data).catalog (Host.after { machine } earlier).machine ∧
      host.store.content? = (Host.after { machine } earlier).store.content?) :=
  ⟨load_determined_iff (sound_after machine acts), overlaid_of_not_faithful machine acts⟩

/-- A loader that knows what some contents hold. Any other content holds nothing. -/
def Loader.knowing (known : List (List UInt8 × Except LoadFault Data)) : Loader :=
  fun bytes => (known.lookup bytes).getD (.ok {})

/-- Data of a catalog with one label. -/
def labelled (name : Value) : Value := .mapping [(.text "labels", .list [name])]

/-- A catalog from the options outlives the load of a file that was loaded before it. -/
theorem inline_outlives_file :
    let root : Path := ⟨.root, ["ws"]⟩
    let persons := "labels: [Person]\n".toUTF8.toList
    let loader := Loader.knowing [(persons, .ok (labelled (.text "Person")))]
    let inline : Value := .mapping [(.text "schema", labelled (.text "Inline"))]
    let host := Host.after { machine := { files := {}, loader } }
      [.work (Files.write (root.child [".cypherls", "schema.yml"]) persons),
        .load .null (some root), .load inline (some root)]
    (host.store.load host.machine .null (some root)).store.catalog.labels =
        [Text.WideText.ofString "Inline"] ∧
      (Catalog.determined host.machine .null (some root)).labels =
        [Text.WideText.ofString "Person"] := by
  decide +kernel

end CypherAssist.Schema
