import CypherAssist.Proofs.Schema.Reading

/-! Where the catalog comes from. Options and workspace select a source: a catalog that stands in
the options, else the file that they name, else the first default file of the workspace, else
nothing. Where none can be selected, or the one selected has a fault that is not reported, a load
breaks off; otherwise it does what its source asks for. -/
namespace CypherAssist.Schema
open Workspace

/-! ## Sources -/

/-- Where a catalog is to come from. -/
inductive Source where
  | inline (data : Value)
  | file (path : Path)
  | nowhere

namespace Source

/-- The source that options and workspace select. -/
def select? (machine : Machine) (options : Value) (root? : Option Path) :
    Except StoreFault Source :=
  match option options "schema" with
  | .null => (sourceFile? machine options root?).map fun found? => (found?.map file).getD nowhere
  | data => .ok (.inline data)

/-- The catalog that a source describes as it stands, if any: one that cannot be read, decoded,
parsed or understood describes none, and where there is no source the empty catalog is meant. -/
def catalog? (machine : Machine) : Source → Option Catalog
  | inline data => (Catalog.ofData? data).toOption
  | file path => (Catalog.ofFile? machine path).toOption
  | nowhere => some {}

/-- The catalog of a source as it stands; empty where the source describes none. -/
def catalog (machine : Machine) (source : Source) : Catalog := (source.catalog? machine).getD {}

section
variable {machine : Machine} {data : Value} {catalog : Catalog}

@[simp] theorem catalog_nowhere (machine : Machine) : nowhere.catalog machine = {} := rfl

@[simp] theorem catalog_inline_ok (described : Catalog.ofData? data = .ok catalog) :
    (inline data).catalog machine = catalog := by
  simp [Source.catalog, catalog?, described, Except.toOption]

@[simp] theorem catalog_inline_error {fault : CatalogFault}
    (faulty : Catalog.ofData? data = .error fault) : (inline data).catalog machine = {} := by
  simp [Source.catalog, catalog?, faulty, Except.toOption]

end

end Source

/-- The catalog that options, workspace and files determine: that of their source as it stands;
empty where no source can be selected. -/
def Catalog.determined (machine : Machine) (options : Value) (root? : Option Path) : Catalog :=
  match Source.select? machine options root? with
  | .ok source => source.catalog machine
  | .error _ => {}

/-- Why no file can be determined: what the options name is no text or lies in the home of an owner
who cannot be asked for or is unknown, or the search for a default file meets a path that is too
long, behind paths that lead to none. -/
inductive Unsettled (machine : Machine) (options : Value) (root? : Option Path) :
    StoreFault → Prop where
  | notPath (configured : (configuredFile options).isTruthy)
      (other : ∀ name, configuredFile options ≠ .text name) :
      Unsettled machine options root? (.notPath (configuredFile options).kindName)
  | noOwner {name owner : Text.WideText} {below : List Text.WideText} {error : FileError}
      (configured : (configuredFile options).isTruthy) (text : configuredFile options = .text name)
      (home : (Path.ofText name).atHome? = some (owner, below))
      (nameless : systemName owner = .error error) :
      Unsettled machine options root? (.noOwner error)
  | unknownHome {name owner : Text.WideText} {below : List Text.WideText} {known : Name}
      (configured : (configuredFile options).isTruthy) (text : configuredFile options = .text name)
      (home : (Path.ofText name).atHome? = some (owner, below))
      (named : systemName owner = .ok known) (unknown : machine.home? known = none) :
      Unsettled machine options root? .unknownHome
  | search {root path : Path} {before behind : List Path}
      (unconfigured : (configuredFile options).isTruthy = false) (rooted : root? = some root)
      (places : defaultFiles.map root.child = before ++ path :: behind)
      (missing : ∀ other ∈ before, machine.files.isFile? other = .ok false)
      (long : machine.files.read path = .error .nameTooLong) :
      Unsettled machine options root? (.search path .nameTooLong)

/-- Why a load breaks off: a name in the options is a number too long to be written out, no file can
be determined, or the file that is selected has a fault that is not reported. -/
inductive Breaks (machine : Machine) (options : Value) (root? : Option Path) :
    StoreFault → Prop where
  | longName (given : option options "schema" ≠ .null)
      (long : Catalog.ofData? (option options "schema") = .error .longName) :
      Breaks machine options root? .longName
  | unsettled {fault : StoreFault} (absent : option options "schema" = .null)
      (unsettled : Unsettled machine options root? fault) : Breaks machine options root? fault
  | file {path : Path} {fault : FileFault}
      (selected : Source.select? machine options root? = .ok (.file path))
      (faulty : Catalog.ofFile? machine path = .error fault) (escapes : fault.Escapes) :
      Breaks machine options root? (.file path fault)

theorem isFile?_eq_error_iff {files : Files} {path : Path} {error : FileError} :
    files.isFile? path = .error error ↔
      error = .nameTooLong ∧ files.read path = .error .nameTooLong := by
  rw [Files.isFile?]
  cases files.read path with
  | ok bytes => simp
  | error other => cases other <;> simp [eq_comm]

/-- The search for a file breaks off at a path that is too long, behind paths that lead to none. -/
theorem firstFile?_eq_error_iff {files : Files} {paths : List Path} {fault : StoreFault} :
    firstFile? files paths = .error fault ↔
      ∃ before path behind, paths = before ++ path :: behind ∧
        (∀ other ∈ before, files.isFile? other = .ok false) ∧
        files.read path = .error .nameTooLong ∧ fault = .search path .nameTooLong := by
  induction paths with
  | nil => simp [firstFile?]
  | cons first rest ih =>
    constructor
    · intro broken
      rw [firstFile?] at broken
      split at broken
      · cases broken
      · rename_i missing
        obtain ⟨before, path, behind, rfl, all, long, rfl⟩ := ih.mp broken
        refine ⟨first :: before, path, behind, rfl, fun other member => ?_, long, rfl⟩
        rcases List.mem_cons.mp member with rfl | later
        · exact missing
        · exact all other later
      · rename_i error long
        cases broken
        obtain ⟨rfl, unread⟩ := isFile?_eq_error_iff.mp long
        exact ⟨[], first, rest, rfl, by simp, unread, rfl⟩
    · rintro ⟨_ | ⟨head, before⟩, path, behind, same, all, long, rfl⟩
      · obtain ⟨rfl, rfl⟩ := List.cons.inj same
        rw [firstFile?, isFile?_eq_error_iff.mpr ⟨rfl, long⟩]
      · obtain ⟨rfl, rfl⟩ := List.cons.inj same
        rw [firstFile?, all first List.mem_cons_self]
        exact ih.mpr ⟨before, path, behind, rfl, fun other member =>
          all other (List.mem_cons_of_mem first member), long, rfl⟩

section
variable {store : Store} {machine : Machine} {options : Value} {root? : Option Path}
variable {source : Source} {fault : StoreFault}

/-- A path has no home directory where the owner cannot be asked for or is unknown. -/
theorem expandHome_eq_error_iff {path : Path} :
    machine.expandHome path = .error fault ↔
      ∃ owner below, path.atHome? = some (owner, below) ∧
        ((∃ error, systemName owner = .error error ∧ fault = .noOwner error) ∨
          ∃ known, systemName owner = .ok known ∧ machine.home? known = none ∧
            fault = .unknownHome) := by
  rw [Machine.expandHome]
  rcases path.atHome? with _ | ⟨owner, below⟩
  · simp
  · rcases named : systemName owner with error | known
    · simp [named, eq_comm]
    · rcases lives : machine.home? known with _ | home <;> simp [named, lives, eq_comm]

theorem sourceFile?_eq_error_iff :
    sourceFile? machine options root? = .error fault ↔ Unsettled machine options root? fault := by
  constructor
  · intro unsettled
    rw [sourceFile?] at unsettled
    split at unsettled
    · rename_i configured
      split at unsettled
      · rename_i name text
        rcases expanded : machine.expandHome (Path.ofText name) with cause | path
        · rw [expanded] at unsettled
          cases unsettled
          obtain ⟨owner, below, home, nameless | missing⟩ := expandHome_eq_error_iff.mp expanded
          · obtain ⟨error, nameless, rfl⟩ := nameless
            exact .noOwner configured text home nameless
          · obtain ⟨known, named, unknown, rfl⟩ := missing
            exact .unknownHome configured text home named unknown
        · rw [expanded] at unsettled
          cases unsettled
      · rename_i other
        cases unsettled
        exact .notPath configured other
    · rename_i unconfigured
      unfold defaultFile? at unsettled
      split at unsettled
      · obtain ⟨before, path, behind, places, missing, long, rfl⟩ :=
          firstFile?_eq_error_iff.mp unsettled
        exact .search (by simpa using unconfigured) rfl places missing long
      · cases unsettled
  · rintro (⟨configured, other⟩ | ⟨configured, text, home, nameless⟩ |
      ⟨configured, text, home, named, unknown⟩ |
      ⟨unconfigured, rooted, places, missing, long⟩)
    · rw [sourceFile?, if_pos configured]
      generalize configuredFile options = value at other ⊢
      cases value with
      | text name => exact absurd rfl (other name)
      | _ => rfl
    · rw [sourceFile?, if_pos configured, text]
      simp only [expandHome_eq_error_iff.mpr ⟨_, _, home, .inl ⟨_, nameless, rfl⟩⟩]
      rfl
    · rw [sourceFile?, if_pos configured, text]
      simp only [expandHome_eq_error_iff.mpr ⟨_, _, home, .inr ⟨_, named, unknown, rfl⟩⟩]
      rfl
    · rw [sourceFile?, if_neg (by simp [unconfigured]), rooted, defaultFile?]
      exact firstFile?_eq_error_iff.mpr ⟨_, _, _, places, missing, long, rfl⟩

theorem select?_of_absent (absent : option options "schema" = .null) :
    Source.select? machine options root? =
      (sourceFile? machine options root?).map fun found? => (found?.map .file).getD .nowhere := by
  rw [Source.select?, absent]

theorem select?_of_given (given : option options "schema" ≠ .null) :
    Source.select? machine options root? = .ok (.inline (option options "schema")) := by
  rw [Source.select?]
  split
  · rename_i absent
    exact absurd absent given
  · rfl

theorem given_of_select? {data : Value}
    (selected : Source.select? machine options root? = .ok (.inline data)) :
    option options "schema" ≠ .null ∧ data = option options "schema" := by
  by_cases absent : option options "schema" = .null
  · rw [select?_of_absent absent] at selected
    rcases found : sourceFile? machine options root? with fault | _ | path <;>
      simp [found, Except.map] at selected
  · rw [select?_of_given absent] at selected
    cases selected
    exact ⟨absent, rfl⟩

/-- A load does what its source asks for. -/
theorem load_eq (store : Store) (machine : Machine) (options : Value) (root? : Option Path) :
    store.load machine options root? =
      match Source.select? machine options root? with
      | .error fault => { store, result := .error fault }
      | .ok .nowhere =>
        { store
          log := [⟨.info, "No schema configured, completing keywords only"⟩]
          result := .ok () }
      | .ok (.file path) =>
        let outcome := { store with file? := some path }.reload machine
        { outcome with result := outcome.result.map fun _ => () }
      | .ok (.inline data) =>
        match Catalog.ofData? data with
        | .ok catalog =>
          { store := { store with catalog }
            log := [⟨.info, "Loaded schema from initialization options"⟩]
            result := .ok () }
        | .error (.shape error) =>
          { store := { store with catalog := {} }
            log := [⟨.warning, "Ignoring inline schema: " ++ error.message⟩]
            result := .ok () }
        | .error .longName => { store, result := .error .longName } := by
  by_cases absent : option options "schema" = .null
  · rw [Store.load, select?_of_absent absent, absent]
    rcases sourceFile? machine options root? with fault | _ | path <;> rfl
  · rw [Store.load, select?_of_given absent]
    split
    · rename_i null
      exact absurd null absent
    · rfl

theorem select?_eq_error_iff :
    Source.select? machine options root? = .error fault ↔
      option options "schema" = .null ∧ Unsettled machine options root? fault := by
  by_cases absent : option options "schema" = .null
  · rw [select?_of_absent absent, ← sourceFile?_eq_error_iff]
    cases sourceFile? machine options root? <;> simp [absent, Except.map]
  · simp [select?_of_given absent, absent]

/-- A load breaks off where no source is selected, and where the one selected has a fault that is
not reported. -/
theorem breaks_iff :
    Breaks machine options root? fault ↔
      Source.select? machine options root? = .error fault ∨
      (∃ data, Source.select? machine options root? = .ok (.inline data) ∧
        Catalog.ofData? data = .error .longName ∧ fault = .longName) ∨
      ∃ path cause, Source.select? machine options root? = .ok (.file path) ∧
        Catalog.ofFile? machine path = .error cause ∧ cause.Escapes ∧
        fault = .file path cause := by
  constructor
  · rintro (⟨given, long⟩ | ⟨absent, unsettled⟩ | ⟨selected, faulty, escapes⟩)
    · exact .inr (.inl ⟨_, select?_of_given given, long, rfl⟩)
    · exact .inl (select?_eq_error_iff.mpr ⟨absent, unsettled⟩)
    · exact .inr (.inr ⟨_, _, selected, faulty, escapes, rfl⟩)
  · rintro (unselected | ⟨data, selected, long, rfl⟩ |
      ⟨path, cause, selected, faulty, escapes, rfl⟩)
    · obtain ⟨absent, unsettled⟩ := select?_eq_error_iff.mp unselected
      exact .unsettled absent unsettled
    · obtain ⟨given, rfl⟩ := given_of_select? selected
      exact .longName given long
    · exact .file selected faulty escapes

theorem load_breaks_iff (sound : store.Sound machine.loader) :
    (store.load machine options root?).result = .error fault ↔
      Breaks machine options root? fault := by
  rw [breaks_iff, load_eq]
  cases selected : Source.select? machine options root? with
  | error other => simp
  | ok source =>
    cases source with
    | nowhere => simp
    | file path =>
      have again : ({ store with file? := some path } : Store).Sound machine.loader := sound
      have breaks := @reload_breaks_iff _ machine again fault
      have mapped : ∀ result : Except StoreFault Bool,
          (result.map fun _ => ()) = .error fault ↔ result = .error fault := by
        rintro (_ | _) <;> simp [Except.map]
      simp [mapped, breaks]
    | inline data =>
      rcases described : Catalog.ofData? data with (error | _) | catalog <;>
        simp [described, eq_comm]

/-- A load that breaks off leaves the catalog that is there. -/
theorem catalog_of_load_error
    (broken : (store.load machine options root?).result = .error fault) :
    (store.load machine options root?).store.catalog = store.catalog := by
  rw [load_eq] at broken ⊢
  cases selected : Source.select? machine options root? with
  | error other => rfl
  | ok source =>
    cases source with
    | nowhere => rfl
    | inline data =>
      rcases described : Catalog.ofData? data with (error | _) | catalog
      · simp [selected, described] at broken
      · simp [described]
      · simp [selected, described] at broken
    | file path =>
      cases ran : (Store.reload { store with file? := some path } machine).result with
      | ok read => simp [selected, ran, Except.map] at broken
      | error other => simp [store_of_reload_error ran]

/-- A load leaves the catalog that is determined, unless another catalog is there and the load
breaks off or finds no source, or the source is a file and what the store remembers is taken for it
though another catalog has been put over that since. -/
theorem load_determined_iff (sound : store.Sound machine.loader) :
    (store.load machine options root?).store.catalog =
        Catalog.determined machine options root? ↔
      ((∃ fault, Breaks machine options root? fault) → store.catalog = {}) ∧
      (Source.select? machine options root? = .ok .nowhere → store.catalog = {}) ∧
      ∀ path, Source.select? machine options root? = .ok (.file path) →
        store.content? = (machine.files.read path).toOption → store.Faithful machine.loader := by
  rw [load_eq, Catalog.determined]
  cases selected : Source.select? machine options root? with
  | error fault => simp [breaks_iff, selected]
  | ok source =>
    cases source with
    | nowhere => simp [breaks_iff, selected]
    | inline data =>
      rcases described : Catalog.ofData? data with (error | _) | catalog <;>
        simp [breaks_iff, selected, described]
    | file path =>
      -- setting the file first touches neither what the store holds nor what it remembers
      have again : ({ store with file? := some path } : Store).Sound machine.loader := sound
      have breaks : (∃ fault, Breaks machine options root? fault) ↔
          ∃ fault, Catalog.ofFile? machine path = .error fault ∧ fault.Escapes := by
        simp [breaks_iff, selected, @exists_comm StoreFault]
      refine (reload_current_iff again rfl).trans ?_
      constructor
      · rintro ⟨faithful, empty⟩
        refine ⟨fun broken => ?_, by simp, fun other same => ?_⟩
        · obtain ⟨fault, faulty, escapes⟩ := breaks.mp broken
          exact empty fault faulty escapes
        · cases same
          exact faithful
      · rintro ⟨empty, _, faithful⟩
        exact ⟨faithful path rfl, fun fault faulty escapes =>
          empty (breaks.mpr ⟨fault, faulty, escapes⟩)⟩

/-- Where a source is selected that describes no catalog, a load that does not break off ends with
the empty one. -/
theorem load_of_bad_source (sound : store.Sound machine.loader)
    (selected : Source.select? machine options root? = .ok source)
    (bad : source.catalog? machine = none)
    (returns : ∀ fault, ¬ Breaks machine options root? fault) :
    (store.load machine options root?).result = .ok () ∧
      (store.load machine options root?).store.catalog = {} := by
  constructor
  · cases ended : (store.load machine options root?).result with
    | ok => rfl
    | error fault => exact absurd ((load_breaks_iff sound).mp ended) (returns fault)
  · have determined : Catalog.determined machine options root? = {} := by
      simp [Catalog.determined, selected, Source.catalog, bad]
    rw [← determined, load_determined_iff sound, selected]
    refine ⟨fun ⟨fault, breaks⟩ => absurd breaks (returns fault), fun same => ?_,
      fun path same => ?_⟩
    · cases same
      cases bad
    · cases same
      cases faulty : Catalog.ofFile? machine path with
      | ok catalog => simp [Source.catalog?, faulty, Except.toOption] at bad
      | error fault => exact faithful_of_fault sound faulty

end

end CypherAssist.Schema
