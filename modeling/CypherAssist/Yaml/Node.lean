import CypherAssist.Yaml.Resolve
import CypherAssist.Yaml.Token

/-! YAML nodes: the collections and scalars that a token stream describes. Nodes are numbered as
they begin, and the parts of a collection are given by their numbers, so that a reference is the
number of the node that its anchor names; this may be the node in which the reference stands. An
entry without a key or value has an empty scalar there. -/
namespace CypherAssist.Yaml

/-- A node of a document. A scalar is known by what it reads as. A collection whose tag is not the
one of its kind stands for no datum. -/
inductive Node where
  | scalar (reading : Resolved)
  | sequence (isStandard : Bool) (items : List Nat)
  | mapping (isStandard : Bool) (entries : List (Nat × Nat))
  deriving Repr, Inhabited

/-- The nodes of a document, and the number of the one that holds all others. -/
structure Document where
  nodes : Array Node
  root : Nat

namespace Node

/-- What may stand in front of a node: a name and a type. -/
structure Properties where
  anchor? : Option String := none
  tag? : Option String := none
  deriving DecidableEq, Repr

namespace Properties

/-- What a text with a standard type reads as. -/
def readTagged (tag text : String) : Resolved :=
  let reading := Resolved.ofText text
  if tag = Token.standardTag ++ "str" then .value (.text text)
  else if tag = Token.standardTag ++ "null" then .value .null
  else if tag = Token.standardTag ++ "int" then
    match reading with
    | .value (.int number) => .value (.int number)
    | .fault (.datum (.noDigits base)) => .fault (.datum (.noDigits base))
    | .fault (.datum (.longNumber digits)) => .fault (.datum (.longNumber digits))
    | _ => .fault .invalid
  else if tag = Token.standardTag ++ "float" then
    match reading with
    | .value (.float number) => .value (.float number)
    | .value (.int number) =>
      .value (.float (Decimal.Double.ofDecimal (number < 0) number.natAbs 0))
    | .fault (.datum .wideNumber) => .fault (.datum .wideNumber)
    | _ => .fault .invalid
  else if tag = Token.standardTag ++ "bool" then
    match Resolved.ofText text.toLower with
    | .value (.bool value) => .value (.bool value)
    | _ => .fault .invalid
  else if tag = Token.standardTag ++ "timestamp" then
    match reading with
    | .value (.time moment) => .value (.time moment)
    | .fault (.datum (.noMoment problem)) => .fault (.datum (.noMoment problem))
    | _ => .fault .invalid
  else .fault .invalid

/-- What a scalar without quotes reads as. -/
def readPlain (properties : Properties) (text : String) : Resolved :=
  match properties.tag? with
  | none => .ofText text
  | some "!" => .ofText text
  | some tag => readTagged tag text

/-- What a scalar in quotes or in a block reads as. -/
def readQuoted (properties : Properties) (text : Text.WideText) : Resolved :=
  match properties.tag? with
  | none => .value (.text text)
  | some tag =>
    match text.chars? with
    | some chars => readPlain ⟨none, some tag⟩ (String.ofList chars)
    | none =>
      if tag = "!" ∨ tag = Token.standardTag ++ "str" then .value (.text text)
      else .fault .invalid

/-- A collection may carry the tag of its own kind only. -/
def allowTag (properties : Properties) (kind : String) : Bool :=
  match properties.tag? with
  | none => true
  | some tag => tag = "!" || tag = Token.standardTag ++ kind

end Properties

/-- What is known while nodes are read: the tokens ahead, the nodes so far, and the numbers of
those with names. -/
structure Progress where
  tokens : List Token
  nodes : Array Node := #[]
  anchors : List (String × Nat) := []

/-- The reading of nodes, which may break off. -/
abbrev Reading := StateT Progress (Except Fault)

/-- The next token; there is none at the end. -/
def peek : Reading (Option Token) := do
  match (← get).tokens with
  | [] => return none
  | .cutOff reason :: _ => throw reason
  | token :: _ => return some token

/-- Passes the next token. -/
def pass : Reading Unit :=
  modify fun progress => { progress with tokens := progress.tokens.drop 1 }

/-- The properties in front of a node: an anchor and a tag in either order. -/
def properties : Reading Properties := do
  match ← peek with
  | some (.anchor name) =>
    pass
    match ← peek with
    | some (.tag tag) => pass; return ⟨some name, some tag⟩
    | _ => return ⟨some name, none⟩
  | some (.tag tag) =>
    pass
    match ← peek with
    | some (.anchor name) => pass; return ⟨some name, some tag⟩
    | _ => return ⟨none, some tag⟩
  | _ => return {}

/-- Begins a node and gives its number. Its name must be new. -/
def begin (properties : Properties) (node : Node) : Reading Nat := do
  let progress ← get
  let number := progress.nodes.size
  let anchors ← match properties.anchor? with
    | none => pure progress.anchors
    | some name =>
      if (progress.anchors.lookup name).isSome then throw .invalid
      pure ((name, number) :: progress.anchors)
  set { progress with nodes := progress.nodes.push node, anchors }
  return number

/-- Completes a node that has begun. -/
def complete (number : Nat) (node : Node) : Reading Unit :=
  modify fun progress => { progress with nodes := progress.nodes.setIfInBounds number node }

/-- The scalar that stands where nothing is written. -/
def empty : Reading Nat := begin {} (.scalar (.value .null))

/-- A node that consists of properties only. -/
def bare (properties : Properties) : Reading Nat :=
  if properties = {} then throw .invalid else begin properties (.scalar (properties.readPlain ""))

/-- Begins a sequence whose items are then read. -/
def sequenceOf (properties : Properties) (items : Reading (List Nat)) : Reading Nat := do
  let isStandard := properties.allowTag "seq"
  let number ← begin properties (.sequence isStandard [])
  complete number (.sequence isStandard (← items))
  return number

/-- Begins a mapping whose entries are then read. -/
def mappingOf (properties : Properties) (entries : Reading (List (Nat × Nat))) : Reading Nat := do
  let isStandard := properties.allowTag "map"
  let number ← begin properties (.mapping isStandard [])
  complete number (.mapping isStandard (← entries))
  return number

/-- Where a node stands. Between brackets it is no block collection; as a part of an entry in block
style it may be a sequence that is not indented more than its key. -/
inductive Place where
  | flow | item | part
  deriving DecidableEq

/-- The tokens in front of which an item of a block sequence is left out. One that is not indented
ends with the next mark of an entry around it. -/
def endsItem (isLoose : Bool) : Option Token → Bool
  | some .blockEntry => true
  | some .blockEnd => true
  | some .key => isLoose
  | some .value => isLoose
  | _ => false

/-- Tokens that end a key or value in block style. -/
def endsPart : Option Token → Bool
  | some .key => true
  | some .value => true
  | some .blockEnd => true
  | _ => false

/-- Tokens that end a key or value between brackets. -/
def endsFlow : Option Token → Bool
  | some .value => true
  | some .flowEntry => true
  | some .flowSequenceEnd => true
  | some .flowMappingEnd => true
  | _ => false

/-- Passes the comma in front of all entries but the first. -/
def comma (isFirst : Bool) : Reading Unit := do
  if isFirst then return
  match ← peek with
  | some .flowEntry => pass
  | _ => throw .invalid

/-- A node, or an empty scalar in front of a token that ends its place. -/
def orEmpty (ends : Option Token → Bool) (node : Reading Nat) : Reading Nat := do
  if ends (← peek) then empty else node

/-- What stands behind the mark of a value; an empty scalar without the mark. -/
def behindMark (ends : Option Token → Bool) (node : Reading Nat) : Reading Nat := do
  match ← peek with
  | some .value => pass; orEmpty ends node
  | _ => empty

/-- The number of collections that may stand inside each other. -/
def deepest : Nat := 3990

mutual

/-- Reads a node inside a number of collections. -/
def read : (fuel depth : Nat) → Place → Reading Nat
  | 0, _, _ => throw .invalid
  | fuel + 1, depth, place => do
    if deepest < depth then throw (.datum .tooDeep)
    match ← peek with
    | some (.reference name) =>
      pass
      Fault.require ((← get).anchors.lookup name)
    | _ =>
      let properties ← properties
      match ← peek with
      | some (.plain text) => pass; begin properties (.scalar (properties.readPlain text))
      | some (.quoted text) => pass; begin properties (.scalar (properties.readQuoted text))
      | some .flowSequenceStart => pass; sequenceOf properties (flowItems fuel (depth + 1) true)
      | some .flowMappingStart => pass; mappingOf properties (flowEntries fuel (depth + 1) true)
      | some .blockEntry =>
        if place = .part then sequenceOf properties (blockItems fuel (depth + 1) true)
        else bare properties
      | some .blockSequenceStart =>
        if place = .flow then bare properties
        else pass; sequenceOf properties (blockItems fuel (depth + 1) false)
      | some .blockMappingStart =>
        if place = .flow then bare properties
        else pass; mappingOf properties (blockEntries fuel (depth + 1))
      | _ => bare properties

/-- Items of a sequence in block style. One that is not indented has no closing token. -/
def blockItems : (fuel depth : Nat) → Bool → Reading (List Nat)
  | 0, _, _ => throw .invalid
  | fuel + 1, depth, isLoose => do
    match ← peek with
    | some .blockEntry =>
      pass
      let item ← orEmpty (endsItem isLoose) (read fuel depth .item)
      return item :: (← blockItems fuel depth isLoose)
    | next =>
      if isLoose then return []
      if next = some .blockEnd then pass; return []
      throw .invalid

/-- Entries of a mapping in block style. -/
def blockEntries : (fuel depth : Nat) → Reading (List (Nat × Nat))
  | 0, _ => throw .invalid
  | fuel + 1, depth => do
    match ← peek with
    | some .key =>
      pass
      let key ← orEmpty endsPart (read fuel depth .part)
      let value ← behindMark endsPart (read fuel depth .part)
      return (key, value) :: (← blockEntries fuel depth)
    | some .blockEnd => pass; return []
    | _ => throw .invalid

/-- The key and value of an entry between brackets, behind the mark of the key. -/
def flowEntry : (fuel depth : Nat) → Reading (Nat × Nat)
  | 0, _ => throw .invalid
  | fuel + 1, depth => do
    let key ← orEmpty endsFlow (read fuel depth .flow)
    return (key, ← behindMark endsFlow (read fuel depth .flow))

/-- Items between square brackets. An item may be a single entry of a mapping. -/
def flowItems : (fuel depth : Nat) → Bool → Reading (List Nat)
  | 0, _, _ => throw .invalid
  | fuel + 1, depth, isFirst => do
    if (← peek) = some .flowSequenceEnd then pass; return []
    comma isFirst
    match ← peek with
    | some .flowSequenceEnd => pass; return []
    | some .key =>
      let item ← mappingOf {} do
        pass
        return [← flowEntry fuel (depth + 1)]
      return item :: (← flowItems fuel depth false)
    | _ =>
      let item ← read fuel depth .flow
      return item :: (← flowItems fuel depth false)

/-- Entries between braces. A key may stand without a value. -/
def flowEntries : (fuel depth : Nat) → Bool → Reading (List (Nat × Nat))
  | 0, _, _ => throw .invalid
  | fuel + 1, depth, isFirst => do
    if (← peek) = some .flowMappingEnd then pass; return []
    comma isFirst
    match ← peek with
    | some .flowMappingEnd => pass; return []
    | some .key =>
      pass
      let entry ← flowEntry fuel depth
      return entry :: (← flowEntries fuel depth false)
    | _ =>
      let key ← read fuel depth .flow
      let value ← empty
      return (key, value) :: (← flowEntries fuel depth false)

end

/-- Passes the directives in front of a document. Another main version than the first is refused,
and so is a second version. -/
def directives (seen : Bool) : (fuel : Nat) → Reading Unit
  | 0 => throw .invalid
  | fuel + 1 => do
    match ← peek with
    | some (.directive (some major)) =>
      if seen || major != 1 then throw .invalid
      pass
      directives true fuel
    | some (.directive none) => pass; directives seen fuel
    | _ => return

/-- Whether nothing stands behind the start mark of a document. -/
def endsDocument : Option Token → Bool
  | none => true
  | some (.directive _) => true
  | some .documentStart => true
  | some .documentEnd => true
  | _ => false

/-- Passes marks of document ends, behind which nothing may follow. -/
def finish : (fuel : Nat) → Reading Unit
  | 0 => throw .invalid
  | fuel + 1 => do
    match ← peek with
    | some .documentEnd => pass; finish fuel
    | none => return
    | some _ => throw .invalid

/-- Reads the only document of a stream, which may start without a mark; there is none in an empty
stream. -/
def document (fuel : Nat) : Reading (Option Nat) := do
  let node := read fuel 0 .item
  match ← peek with
  | none => return none
  | some (.directive _) =>
    directives false fuel
    if (← peek) ≠ some .documentStart then throw .invalid
    pass
    return some (← orEmpty endsDocument node)
  | some .documentStart => pass; return some (← orEmpty endsDocument node)
  | some _ => return some (← node)

end Node

/-- The document that tokens describe, if there is one. -/
def Document.ofTokens? (tokens : List Token) : Except Fault (Option Document) := do
  let fuel := 3 * tokens.length + 3
  let (root?, progress) ← (do
    let root? ← Node.document fuel
    Node.finish fuel
    return root? : Node.Reading (Option Nat)).run { tokens }
  return root?.map fun root => ⟨progress.nodes, root⟩

end CypherAssist.Yaml
