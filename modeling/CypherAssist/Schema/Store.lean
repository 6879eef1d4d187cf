import CypherAssist.Schema.File
import CypherAssist.Workspace.Uri

/-! The store of the catalog from which a session completes. The catalog is given inline with the
options of a client, or is read from a file: one that the options name, or the first of three files
in the workspace. A file is read again when it is saved, and skipped while its content stays the
same. Every operation gives the new store, what it logs, and how it ends. -/
namespace CypherAssist.Schema
open Client Workspace

/-- The catalog in use, the file from which it is to be read, and the content it was read from. -/
structure Store where
  catalog : Catalog := {}
  file? : Option Path := none
  content? : Option (List UInt8) := none
  deriving Repr, Inhabited

/-- Why an operation on a store breaks off. -/
inductive StoreFault where
  | notPath (kind : String)
  | noOwner (error : FileError)
  | unknownHome
  | badUri (error : UriError)
  | unresolvable (path : Path) (error : FileError)
  | search (path : Path) (error : FileError)
  | file (path : Path) (fault : FileFault)
  | longName
  deriving DecidableEq, Repr

/-- The failure that a fault shows as. -/
def StoreFault.failure : StoreFault → Failure
  | .notPath kind => ⟨"TypeError", "expected str, bytes or os.PathLike object, not " ++ kind⟩
  | .noOwner error => ⟨error.kind, error.message⟩
  | .unknownHome => ⟨"RuntimeError", "Could not determine home directory."⟩
  | .badUri error => ⟨"ValueError", error.message⟩
  | .unresolvable path error => error.failure path
  | .search path error => error.failure path
  | .file path fault => fault.failure path
  | .longName => ⟨"ValueError", longNameMessage⟩

/-- How an operation on a store ends. -/
structure Outcome (α : Type) where
  store : Store
  log : List Message := []
  result : Except StoreFault α

/-- The directory and the names of the schema files of a workspace. -/
def defaultFiles : List (List Text.WideText) :=
  [[".cypherls", "schema.yml"], [".cypherls", "schema.yaml"], [".cypherls", "schema.json"]]

/-- The first of several paths that leads to a file. -/
def firstFile? (files : Files) : List Path → Except StoreFault (Option Path)
  | [] => .ok none
  | path :: rest =>
    match files.isFile? path with
    | .ok true => .ok (some path)
    | .ok false => firstFile? files rest
    | .error error => .error (.search path error)

/-- The schema file of a workspace: the first one that is there. -/
def defaultFile? (files : Files) (root? : Option Path) : Except StoreFault (Option Path) :=
  match root? with
  | some root => firstFile? files (defaultFiles.map root.child)
  | none => .ok none

/-- The value that options have under a key; null where they have none. -/
def option (options : Value) (key : String) : Value := (options.field? key).getD .null

/-- What options say about the schema file. -/
def configuredFile (options : Value) : Value :=
  let value := option options "schemaFile"
  if value.isTruthy then value else option options "schema_file"

/-- A path with the home directory in which it starts, if it starts in one. -/
def Machine.expandHome (machine : Machine) (path : Path) : Except StoreFault Path :=
  match path.atHome? with
  | none => .ok path
  | some (owner, below) =>
    match systemName owner with
    | .error error => .error (.noOwner error)
    | .ok name =>
      match machine.home? name with
      | some home => .ok (home.child below)
      | none => .error .unknownHome

/-- The file that options and workspace determine, if any. -/
def sourceFile? (machine : Machine) (options : Value) (root? : Option Path) :
    Except StoreFault (Option Path) :=
  let configured := configuredFile options
  if configured.isTruthy then
    match configured with
    | .text name =>
      (machine.expandHome (Path.ofText name)).map fun path => some <|
        match root? with
        | some root => path.within root
        | none => path
    | other => .error (.notPath other.kindName)
  else defaultFile? machine.files root?

/-- What is logged of a catalog that was read from a file. -/
def loadedMessage (path : Path) (catalog : Catalog) : Message :=
  ⟨.info, "Loaded schema from " ++ path.text ++ ": " ++
    toString catalog.labels.length ++ " labels, " ++
    toString catalog.relationshipTypes.length ++ " relationship types, " ++
    toString catalog.procedures.length ++ " procedures, " ++
    toString catalog.functions.length ++ " functions"⟩

namespace Store

/-- Reads a file into the store, whatever the store held. A fault that can be reported leaves an
empty catalog; any other breaks off and leaves the store as it was. -/
def readFile (store : Store) (machine : Machine) (path : Path) : Outcome Bool :=
  match Catalog.ofFile? machine path with
  | .ok catalog =>
    { store := { store with catalog, content? := (machine.files.read path).toOption }
      log := [loadedMessage path catalog]
      result := .ok true }
  | .error fault =>
    match fault.reason? with
    | some reason =>
      { store := { store with catalog := {}, content? := none }
        log := [⟨.error, FileFault.report path reason⟩]
        result := .ok true }
    | none => { store, result := .error (.file path fault) }

/-- Reads the file of the store again unless its content is the one last read; tells whether it was
read. -/
def reload (store : Store) (machine : Machine) : Outcome Bool :=
  match store.file? with
  | none => { store, result := .ok false }
  | some path =>
    match machine.files.read path with
    | .ok bytes =>
      if store.content? = some bytes then { store, result := .ok false }
      else store.readFile machine path
    | .error _ => store.readFile machine path

/-- Loads the catalog that options and workspace determine. Without any source the store keeps the
catalog it has. -/
def load (store : Store) (machine : Machine) (options : Value) (root? : Option Path) :
    Outcome Unit :=
  match option options "schema" with
  | .null =>
    match sourceFile? machine options root? with
    | .error fault => { store, result := .error fault }
    | .ok none =>
      { store
        log := [⟨.info, "No schema configured, completing keywords only"⟩]
        result := .ok () }
    | .ok (some path) =>
      let outcome := { store with file? := some path }.reload machine
      { outcome with result := outcome.result.map fun _ => () }
  | inline =>
    match Catalog.ofData? inline with
    | .ok catalog =>
      { store := { store with catalog }
        log := [⟨.info, "Loaded schema from initialization options"⟩]
        result := .ok () }
    | .error (.shape error) =>
      { store := { store with catalog := {} }
        log := [⟨.warning, "Ignoring inline schema: " ++ error.message⟩]
        result := .ok () }
    | .error .longName => { store, result := .error .longName }

/-- Reads the file of the store again if the document that was saved is that file. -/
def saved (store : Store) (machine : Machine) (uri : String) : Outcome Unit :=
  match store.file? with
  | none => { store, result := .ok () }
  | some path =>
    match pathOfUri? uri with
    | .error error => { store, result := .error (.badUri error) }
    | .ok savedPath =>
      match machine.files.resolve savedPath, machine.files.resolve path with
      | .error error, _ => { store, result := .error (.unresolvable savedPath error) }
      | .ok _, .error error => { store, result := .error (.unresolvable path error) }
      | .ok place, .ok ownPlace =>
        if place = ownPlace then
          let outcome := store.reload machine
          { outcome with result := outcome.result.map fun _ => () }
        else { store, result := .ok () }

end Store

end CypherAssist.Schema
