import CypherAssist.Schema.Catalog
import CypherAssist.Workspace.Files

/-! Schema files: a catalog written as YAML in UTF-8. How YAML is read is left to the machine. -/
namespace CypherAssist.Schema
open Text Workspace

/-- Why a loader gives no data: there is no YAML, as the details say, or something else has
failed. -/
inductive LoadFault where
  | invalid (details : WideText)
  | failed (failure : Client.Failure)
  deriving DecidableEq, Repr

/-- A loader reads bytes as text in UTF-8, and the text as data in YAML. -/
abbrev Loader := List UInt8 → Except LoadFault Data

/-- The machine on which a session runs: its files, its loader, and the home directories of its
users by their names. The present user goes by the empty name. -/
structure Machine where
  files : Files
  loader : Loader
  home? : Name → Option Path := fun _ => none

/-- Why a file gives no catalog. -/
inductive FileFault where
  | unreadable (error : FileError)
  | unloadable (fault : LoadFault)
  | catalog (fault : CatalogFault)
  deriving DecidableEq, Repr

namespace FileFault

/-- What a report on a file says. Paths that the system is never asked for, names that are too long
and whatever else fails are not reported in this way. -/
def reason? : FileFault → Option WideText
  | .unreadable error => if error.number?.isSome then some error.message else none
  | .unloadable (.invalid details) => some ("invalid YAML: " ++ details)
  | .unloadable (.failed _) => none
  | .catalog (.shape error) => some error.message
  | .catalog .longName => none

/-- The report on a file that gives no catalog. -/
def report (path : Path) (reason : WideText) : WideText :=
  "Cannot load schema from " ++ path.text ++ ": " ++ reason

/-- The failure to load a file. -/
def failure (fault : FileFault) (path : Path) : Client.Failure :=
  match fault.reason?, fault with
  | some reason, _ => ⟨"SchemaLoadError", report path reason⟩
  | none, .unreadable error => error.failure path
  | none, .unloadable (.failed failure) => failure
  | none, _ => ⟨"ValueError", longNameMessage⟩

end FileFault

namespace Catalog

/-- The catalog that the bytes of a file describe. -/
def ofBytes? (loader : Loader) (bytes : List UInt8) : Except FileFault Catalog :=
  match loader bytes with
  | .ok data => (ofData? data).mapError .catalog
  | .error fault => .error (.unloadable fault)

/-- The catalog that a file describes. -/
def ofFile? (machine : Machine) (path : Path) : Except FileFault Catalog := do
  ofBytes? machine.loader (← (machine.files.read path).mapError .unreadable)

end Catalog

end CypherAssist.Schema
