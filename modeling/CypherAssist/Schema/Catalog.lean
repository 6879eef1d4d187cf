import CypherAssist.Schema.Value

/-! The catalog of a database: the names from which completion draws. A catalog is built from
loosely shaped data; each field may be missing or null, and is read from its camel-case key where
that is present and from the key with underscores otherwise. -/
namespace CypherAssist.Schema
open Text

/-- What is known about a procedure or function. -/
structure Signature where
  label : WideText
  documentation : Value := .null
  deriving Repr, Inhabited

/-- The names that a database knows. All fields are empty where nothing is known. Parameters and
documentation are kept as they are given, with the collections that have numbers in them. -/
structure Catalog where
  labels : List WideText := []
  relationshipTypes : List WideText := []
  procedures : List (WideText × Signature) := []
  functions : List (WideText × Signature) := []
  databaseNames : List WideText := []
  aliasNames : List WideText := []
  propertyKeys : List WideText := []
  parameters : List (Value × Value) := []
  parts : List (Nat × Value) := []
  deriving Repr, Inhabited

/-- What is wrong with the shape of data. -/
inductive ShapeError where
  | notMapping (kind : String)
  | parametersNotMapping
  | notNames (field : String)
  | notSignatures (field : String)
  | invalidSignature (name : WideText)
  deriving DecidableEq, Repr

/-- The wording of a shape error. -/
def ShapeError.message : ShapeError → WideText
  | .notMapping kind => "Schema must be a mapping, got " ++ kind
  | .parametersNotMapping => "'parameters' must be a mapping"
  | .notNames field => "'" ++ field ++ "' must be a list of names"
  | .notSignatures field => "'" ++ field ++ "' must be a mapping or a list of names"
  | .invalidSignature name => "Invalid signature for '" ++ name ++ "'"

/-- Why data describe no catalog: they have the wrong shape, or a number that stands for a name is
too long to be written out. -/
inductive CatalogFault where
  | shape (error : ShapeError)
  | longName
  deriving DecidableEq, Repr

/-- What is said of a name that is too long to be written out. -/
def longNameMessage : String :=
  "Exceeds the limit (" ++ toString Value.mostDigits ++
    " digits) for integer string conversion; use sys.set_int_max_str_digits() to increase the limit"

/-- The text of a datum as a name. -/
def Data.name (data : Data) (value : Value) : Except CatalogFault WideText :=
  match data.text? value with
  | some name => .ok name
  | none => .error .longName

/-- A field of a catalog by the two spellings of its key. -/
structure Field where
  key : String
  alternative : String

namespace Field

def labels : Field := ⟨"labels", "labels"⟩

def relationshipTypes : Field := ⟨"relationshipTypes", "relationship_types"⟩

def procedureSignatures : Field := ⟨"procedureSignatures", "procedure_signatures"⟩

def functionSignatures : Field := ⟨"functionSignatures", "function_signatures"⟩

def databaseNames : Field := ⟨"databaseNames", "database_names"⟩

def aliasNames : Field := ⟨"aliasNames", "alias_names"⟩

def propertyKeys : Field := ⟨"propertyKeys", "property_keys"⟩

def parameters : Field := ⟨"parameters", "parameters"⟩

/-- The datum of a field; a null under the first key hides the second one. -/
def value (field : Field) (data : Data) (entries : List (Value × Value)) : Value :=
  data.resolve <| match Value.find? entries (.text field.key) with
    | some value => value
    | none => (Value.find? entries (.text field.alternative)).getD .null

/-- The names of a field. Names may be given as data of any kind. -/
def names (field : Field) (data : Data) (entries : List (Value × Value)) :
    Except CatalogFault (List WideText) :=
  match field.value data entries with
  | .null => .ok []
  | .list items => items.mapM data.name
  | .object _ _ _ (some items) => items.mapM data.name
  | _ => .error (.shape (.notNames field.key))

end Field

namespace Signature

/-- The signature under a name: nothing but the name, a label, or a mapping. An empty label counts
as missing. -/
def ofValue? (data : Data) (name : WideText) (value : Value) : Except CatalogFault Signature :=
  match data.resolve value with
  | .null => .ok ⟨name, .null⟩
  | .text label => .ok ⟨label, .null⟩
  | .mapping entries => do
    let label := (Value.find? entries (.text "label")).getD .null
    let shown ← if (data.resolve label).isTruthy then data.name label else .ok name
    return ⟨shown, (Value.find? entries (.text "documentation")).getD .null⟩
  | _ => .error (.shape (.invalidSignature name))

/-- Sets the signature of a name. A name that is present keeps its place. -/
def insert (known : List (WideText × Signature)) (name : WideText) (signature : Signature) :
    List (WideText × Signature) :=
  if known.any fun entry => entry.1 = name then
    known.map fun entry => if entry.1 = name then (name, signature) else entry
  else known ++ [(name, signature)]

/-- The signatures of a field: a mapping, or a list of bare names. -/
def ofField? (field : Field) (data : Data) (entries : List (Value × Value)) :
    Except CatalogFault (List (WideText × Signature)) :=
  let collect (given : List (Value × Value)) :
      Except CatalogFault (List (WideText × Signature)) :=
    given.foldlM (fun known entry => do
      let name ← data.name entry.1
      return insert known name (← ofValue? data name entry.2)) []
  match field.value data entries with
  | .null => .ok []
  | .mapping given => collect given
  | .list items => collect (items.map fun item => (item, .null))
  | _ => .error (.shape (.notSignatures field.key))

end Signature

namespace Catalog

/-- The parameters of a schema. Any datum that counts as false stands for none. -/
def parametersOf (data : Data) (entries : List (Value × Value)) :
    Except CatalogFault (List (Value × Value)) :=
  let value := Field.parameters.value data entries
  if value.isTruthy then
    match value with
    | .mapping given => .ok given
    | _ => .error (.shape .parametersNotMapping)
  else .ok []

/-- The catalog that data describe. The parameters are checked first and the other fields in the
order of the catalog. -/
def ofData? (data : Data) : Except CatalogFault Catalog :=
  match data.resolve data.root with
  | .null => .ok {}
  | .mapping entries => do
    let parameters ← parametersOf data entries
    let labels ← Field.labels.names data entries
    let relationshipTypes ← Field.relationshipTypes.names data entries
    let procedures ← Signature.ofField? .procedureSignatures data entries
    let functions ← Signature.ofField? .functionSignatures data entries
    let databaseNames ← Field.databaseNames.names data entries
    let aliasNames ← Field.aliasNames.names data entries
    let propertyKeys ← Field.propertyKeys.names data entries
    return { labels, relationshipTypes, procedures, functions, databaseNames, aliasNames,
             propertyKeys, parameters, parts := data.parts }
  | other => .error (.shape (.notMapping other.kindName))

/-- The names of the procedures. -/
def procedureNames (catalog : Catalog) : List WideText := catalog.procedures.map (·.1)

/-- The names of the functions. -/
def functionNames (catalog : Catalog) : List WideText := catalog.functions.map (·.1)

/-- Whether nothing is known. -/
def isEmpty (catalog : Catalog) : Bool :=
  catalog.labels.isEmpty && catalog.relationshipTypes.isEmpty && catalog.procedures.isEmpty &&
    catalog.functions.isEmpty && catalog.databaseNames.isEmpty && catalog.aliasNames.isEmpty &&
    catalog.propertyKeys.isEmpty && catalog.parameters.isEmpty

end Catalog

end CypherAssist.Schema
