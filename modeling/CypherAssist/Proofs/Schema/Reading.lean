import CypherAssist.Schema.Store

/-! What reading the file of a store again can do. The store has no file, or keeps what it has of
the same content, or takes the catalog of a new content, or is emptied, or the reading breaks off.
All that is shown of reloads is shown from these five ways. -/
namespace CypherAssist.Schema
open Workspace

/-! ## Catalogs of files -/

section
variable {machine : Machine} {path : Path} {bytes : List UInt8} {catalog : Catalog}

theorem ofFile?_of_read (found : machine.files.read path = .ok bytes) :
    Catalog.ofFile? machine path = Catalog.ofBytes? machine.loader bytes := by
  rw [Catalog.ofFile?, found]
  rfl

theorem exists_read_of_ofFile? (described : Catalog.ofFile? machine path = .ok catalog) :
    ∃ bytes, machine.files.read path = .ok bytes ∧
      Catalog.ofBytes? machine.loader bytes = .ok catalog := by
  cases found : machine.files.read path with
  | ok bytes => exact ⟨bytes, rfl, (ofFile?_of_read found).symm.trans described⟩
  | error error =>
    rw [Catalog.ofFile?, found] at described
    cases described

end

/-- The catalog of a file as it stands; empty where the file describes none. -/
def Catalog.current (machine : Machine) (path : Path) : Catalog :=
  (Catalog.ofFile? machine path).toOption.getD {}

namespace FileFault

/-- The faults that are not reported but break an operation off. -/
inductive Escapes : FileFault → Prop where
  | nullInPath : Escapes (.unreadable .nullInPath)
  | unnameable (error : Unnameable) : Escapes (.unreadable (.unnameable error))
  | failed (failure : Client.Failure) : Escapes (.unloadable (.failed failure))
  | longName : Escapes (.catalog .longName)

theorem reason?_eq_none_iff (fault : FileFault) : fault.reason? = none ↔ fault.Escapes := by
  constructor
  · intro unreported
    rcases fault with error | (details | failure) | (shape | _)
    · cases error with
      | nullInPath => exact .nullInPath
      | unnameable error => exact .unnameable error
      | _ => simp [reason?, FileError.number?] at unreported
    · simp [reason?] at unreported
    · exact .failed failure
    · simp [reason?] at unreported
    · exact .longName
  · rintro (_ | error | failure | _) <;> rfl

end FileFault

/-- A loader that fails over no text in UTF-8 with anything but an error of YAML. -/
def Loader.Contained (loader : Loader) : Prop :=
  ∀ bytes text, Text.Utf8.strict bytes = .ok text →
    ∀ failure, loader bytes ≠ .error (.failed failure)

/-- With such a loader a file has a fault that is not reported only where the system is not asked
for its path, where its bytes are no UTF-8, or where a name in it is too long. -/
theorem cause_of_escape {machine : Machine} {path : Path} {fault : FileFault}
    (contained : machine.loader.Contained) (faulty : Catalog.ofFile? machine path = .error fault)
    (escapes : fault.Escapes) :
    (∃ error, machine.files.read path = .error error ∧ error.number? = none) ∨
      (∃ bytes defect, machine.files.read path = .ok bytes ∧
        Text.Utf8.strict bytes = .error defect) ∨
      fault = .catalog .longName := by
  cases found : machine.files.read path with
  | error error =>
    rw [Catalog.ofFile?, found] at faulty
    cases faulty
    cases escapes <;> exact .inl ⟨_, rfl, rfl⟩
  | ok bytes =>
    rw [ofFile?_of_read found, Catalog.ofBytes?] at faulty
    cases loaded : machine.loader bytes with
    | error cause =>
      rw [loaded] at faulty
      cases faulty
      cases escapes with
      | failed failure =>
        cases read : Text.Utf8.strict bytes with
        | ok text => exact absurd loaded (contained bytes text read failure)
        | error defect => exact .inr (.inl ⟨bytes, defect, rfl, read⟩)
    | ok data =>
      simp only [loaded] at faulty
      cases described : Catalog.ofData? data with
      | ok catalog =>
        rw [described] at faulty
        cases faulty
      | error cause =>
        rw [described] at faulty
        cases faulty
        cases escapes
        exact .inr (.inr rfl)

/-! ## Reading a file again -/

/-- What reading the file of a store again can do. -/
inductive Reading (store : Store) (machine : Machine) : Outcome Bool → Prop where
  | idle (unset : store.file? = none) :
      Reading store machine { store, result := .ok false }
  | same {path : Path} {bytes : List UInt8} (set : store.file? = some path)
      (found : machine.files.read path = .ok bytes) (known : store.content? = some bytes) :
      Reading store machine { store, result := .ok false }
  | loaded {path : Path} {bytes : List UInt8} {catalog : Catalog} (set : store.file? = some path)
      (found : machine.files.read path = .ok bytes)
      (described : Catalog.ofBytes? machine.loader bytes = .ok catalog) :
      Reading store machine
        { store := { store with catalog, content? := some bytes }
          log := [loadedMessage path catalog]
          result := .ok true }
  | emptied {path : Path} {fault : FileFault} {reason : Text.WideText}
      (set : store.file? = some path) (faulty : Catalog.ofFile? machine path = .error fault)
      (reported : fault.reason? = some reason) :
      Reading store machine
        { store := { store with catalog := {}, content? := none }
          log := [⟨.error, FileFault.report path reason⟩]
          result := .ok true }
  | broken {path : Path} {fault : FileFault} (set : store.file? = some path)
      (faulty : Catalog.ofFile? machine path = .error fault) (escapes : fault.Escapes) :
      Reading store machine { store, result := .error (.file path fault) }

theorem reading_readFile {store : Store} {machine : Machine} {path : Path}
    (set : store.file? = some path) :
    Reading store machine (store.readFile machine path) := by
  cases described : Catalog.ofFile? machine path with
  | ok catalog =>
    obtain ⟨bytes, found, same⟩ := exists_read_of_ofFile? described
    simp only [Store.readFile, described, found]
    exact .loaded set found same
  | error fault =>
    cases reported : fault.reason? with
    | some reason =>
      simp only [Store.readFile, described, reported]
      exact .emptied set described reported
    | none =>
      simp only [Store.readFile, described, reported]
      exact .broken set described ((FileFault.reason?_eq_none_iff fault).mp reported)

theorem reading_reload (store : Store) (machine : Machine) :
    Reading store machine (store.reload machine) := by
  cases set : store.file? with
  | none =>
    simp only [Store.reload, set]
    exact .idle set
  | some path =>
    cases found : machine.files.read path with
    | error error =>
      simp only [Store.reload, set, found]
      exact reading_readFile set
    | ok bytes =>
      simp only [Store.reload, set, found]
      split
      · rename_i known
        exact .same set found known
      · exact reading_readFile set

/-! ## What a store remembers -/

namespace Store

/-- The content remembered describes a catalog. -/
def Sound (store : Store) (loader : Loader) : Prop :=
  ∀ bytes, store.content? = some bytes → ∃ catalog, Catalog.ofBytes? loader bytes = .ok catalog

/-- The content remembered describes the catalog in use. -/
def Faithful (store : Store) (loader : Loader) : Prop :=
  ∀ bytes, store.content? = some bytes → Catalog.ofBytes? loader bytes = .ok store.catalog

end Store

section
variable {store : Store} {machine : Machine} {path : Path} {fault : FileFault}

/-- A file with a fault is never taken for the one remembered. -/
theorem content?_ne_of_fault (sound : store.Sound machine.loader)
    (faulty : Catalog.ofFile? machine path = .error fault) {bytes : List UInt8}
    (found : machine.files.read path = .ok bytes) : store.content? ≠ some bytes := by
  intro known
  obtain ⟨catalog, described⟩ := sound bytes known
  rw [ofFile?_of_read found, described] at faulty
  cases faulty

/-- Where the content remembered is that of a file with a fault, nothing is remembered. -/
theorem faithful_of_fault (sound : store.Sound machine.loader)
    (faulty : Catalog.ofFile? machine path = .error fault)
    (known : store.content? = (machine.files.read path).toOption) :
    store.Faithful machine.loader := by
  intro bytes remembered
  cases found : machine.files.read path with
  | ok other =>
    rw [found] at known
    exact absurd known (content?_ne_of_fault sound faulty found)
  | error error =>
    rw [known, found] at remembered
    cases remembered

theorem faithful_iff {catalog : Catalog} {bytes : List UInt8}
    (known : store.content? = some bytes)
    (described : Catalog.ofBytes? machine.loader bytes = .ok catalog) :
    store.Faithful machine.loader ↔ store.catalog = catalog := by
  constructor
  · intro faithful
    exact Except.ok.inj ((faithful bytes known).symm.trans described)
  · rintro rfl other remembered
    cases known.symm.trans remembered
    exact described

theorem reload_of_fault (sound : store.Sound machine.loader) (set : store.file? = some path)
    (faulty : Catalog.ofFile? machine path = .error fault) :
    store.reload machine = store.readFile machine path := by
  cases found : machine.files.read path with
  | error error => simp [Store.reload, set, found]
  | ok bytes => simp [Store.reload, set, found, content?_ne_of_fault sound faulty found]

/-- A fault that is not reported leaves the store as it was. -/
theorem reload_of_escape (sound : store.Sound machine.loader) (set : store.file? = some path)
    (faulty : Catalog.ofFile? machine path = .error fault) (escapes : fault.Escapes) :
    store.reload machine = { store, result := .error (.file path fault) } := by
  have unreported := (FileFault.reason?_eq_none_iff fault).mpr escapes
  rw [reload_of_fault sound set faulty]
  simp [Store.readFile, faulty, unreported]

/-- Any other fault empties it. -/
theorem reload_of_reported (sound : store.Sound machine.loader) (set : store.file? = some path)
    (faulty : Catalog.ofFile? machine path = .error fault) (reported : ¬ fault.Escapes) :
    (store.reload machine).result = .ok true ∧ (store.reload machine).store.catalog = {} ∧
      (store.reload machine).store.content? = none := by
  rw [← FileFault.reason?_eq_none_iff] at reported
  obtain ⟨reason, shown⟩ := Option.ne_none_iff_exists'.mp reported
  rw [reload_of_fault sound set faulty]
  simp [Store.readFile, faulty, shown]

/-- A file that describes a catalog fills the store with it, unless its content is remembered. -/
theorem reload_of_described {catalog : Catalog} {bytes : List UInt8}
    (set : store.file? = some path) (found : machine.files.read path = .ok bytes)
    (described : Catalog.ofBytes? machine.loader bytes = .ok catalog) :
    (∃ read, (store.reload machine).result = .ok read) ∧
      (store.reload machine).store.catalog =
        if store.content? = some bytes then store.catalog else catalog := by
  have whole := (ofFile?_of_read found).trans described
  by_cases known : store.content? = some bytes
  · simp [Store.reload, set, found, known]
  · simp [Store.reload, set, found, known, Store.readFile, whole]

/-- Reading the file of a store again leaves the catalog of the file as it stands, unless what the
store remembers is taken for it and another catalog has been put over that since, or the reading
breaks off over a catalog that is not empty. -/
theorem reload_current_iff (sound : store.Sound machine.loader) (set : store.file? = some path) :
    (store.reload machine).store.catalog = Catalog.current machine path ↔
      (store.content? = (machine.files.read path).toOption → store.Faithful machine.loader) ∧
        ∀ fault, Catalog.ofFile? machine path = .error fault → fault.Escapes →
          store.catalog = {} := by
  cases described : Catalog.ofFile? machine path with
  | ok catalog =>
    obtain ⟨bytes, found, same⟩ := exists_read_of_ofFile? described
    have current : Catalog.current machine path = catalog := by
      simp [Catalog.current, described, Except.toOption]
    rw [(reload_of_described set found same).2, current, found]
    by_cases known : store.content? = some bytes
    · simp [known, Except.toOption, faithful_iff known same]
    · simp [known, Except.toOption]
  | error fault =>
    have current : Catalog.current machine path = {} := by
      simp [Catalog.current, described, Except.toOption]
    have faithful := faithful_of_fault sound described
    by_cases escapes : fault.Escapes
    · rw [reload_of_escape sound set described escapes, current]
      refine ⟨fun empty => ⟨faithful, fun _ _ _ => empty⟩, fun ⟨_, empty⟩ => ?_⟩
      exact empty fault rfl escapes
    · rw [(reload_of_reported sound set described escapes).2.1, current]
      refine iff_of_true rfl ⟨faithful, fun other same reported => ?_⟩
      cases same
      exact absurd reported escapes

theorem store_of_reload_error {obstacle : StoreFault}
    (broken : (store.reload machine).result = .error obstacle) :
    (store.reload machine).store = store := by
  generalize ran : store.reload machine = outcome at broken ⊢
  have reading := reading_reload store machine
  rw [ran] at reading
  cases reading with
  | idle | same | broken => rfl
  | loaded | emptied => cases broken

/-- Reading the file of a store again breaks off exactly where the file has a fault that is not
reported. -/
theorem reload_breaks_iff (sound : store.Sound machine.loader) {obstacle : StoreFault} :
    (store.reload machine).result = .error obstacle ↔
      ∃ path fault, store.file? = some path ∧ Catalog.ofFile? machine path = .error fault ∧
        fault.Escapes ∧ obstacle = .file path fault := by
  constructor
  · generalize ran : store.reload machine = outcome
    have reading := reading_reload store machine
    rw [ran] at reading
    intro broken
    cases reading with
    | idle | same | loaded | emptied => cases broken
    | broken set faulty escapes =>
      cases broken
      exact ⟨_, _, set, faulty, escapes, rfl⟩
  · rintro ⟨path, fault, set, faulty, escapes, rfl⟩
    rw [reload_of_escape sound set faulty escapes]

end

end CypherAssist.Schema
