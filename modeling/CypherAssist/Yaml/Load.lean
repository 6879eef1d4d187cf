import CypherAssist.Yaml.Merge

/-! Data from YAML. A text holds at most one document. Its collections are made from the outside to
the inside: one is known to be there before its parts are read, and the parts of all collections are
read in the order in which these were first met. Of two entries of a mapping with one key the later
value counts. -/
namespace CypherAssist.Yaml
open Schema

/-- What is known while data are made: the nodes, on which merges are carried out, the collections
that have been met with the parts read so far, and those whose parts are still to be read. -/
structure Making where
  nodes : Array Node
  bodies : Array (Option Value)
  waiting : List Nat := []

namespace Making

/-- The making of data, which may break off. -/
abbrev Step := StateT Making (Except Fault)

/-- The datum of a node. A collection is given by its number, and waits for its parts when it is
first met. -/
def value (number : Nat) : Step Value := do
  let making ← get
  let met (isStandard : Bool) (body : Value) : Step Value := do
    match making.bodies[number]? with
    | some none =>
      if !isStandard then throw .invalid
      set { making with
        bodies := making.bodies.setIfInBounds number (some body)
        waiting := making.waiting ++ [number] }
    | _ => pure ()
    return .numbered number
  match making.nodes[number]? with
  | some (.scalar reading) => reading.datum
  | some (.sequence isStandard _) => met isStandard (.list [])
  | some (.mapping isStandard _) => met isStandard (.mapping [])
  | none => throw .invalid

/-- Reads an entry of a mapping. A collection is no key. -/
def entry (known : List (Value × Value)) (parts : Nat × Nat) : Step (List (Value × Value)) := do
  let key ← value parts.1
  if key.isCollection then throw .invalid
  return Value.insert known key (← value parts.2)

/-- Reads the parts of a collection. -/
def fill (limit number : Nat) : Step Unit := do
  let making ← get
  let nodes ← Merge.mergeInto limit making.nodes number
  set { making with nodes }
  let body ← match nodes[number]? with
    | some (.sequence _ items) => Value.list <$> items.mapM value
    | some (.mapping _ entries) => Value.mapping <$> entries.foldlM entry []
    | _ => throw .invalid
  modify fun making => { making with bodies := making.bodies.setIfInBounds number (some body) }

/-- Reads the parts of all collections that wait. -/
def fillAll (limit : Nat) : (fuel : Nat) → Step Unit
  | 0 => pure ()
  | fuel + 1 => do
    match (← get).waiting with
    | [] => pure ()
    | number :: waiting =>
      modify fun making => { making with waiting }
      fill limit number
      fillAll limit fuel

/-- The parts of a collection by a rule for each of them. -/
def mapParts (change : Value → Value) : Value → Value
  | .list items => .list (items.map change)
  | .mapping entries => .mapping (entries.map fun entry => (entry.1, change entry.2))
  | other => other

/-- The number by which a datum is given. -/
def number? : Value → Option Nat
  | .numbered number => some number
  | _ => none

/-- The numbers inside a collection. -/
def inner : Value → List Nat
  | .list items => items.filterMap number?
  | .mapping entries => entries.filterMap fun entry => number? entry.2
  | _ => []

/-- The collection with a number. -/
def body (bodies : Array (Option Value)) (number : Nat) : Value :=
  ((bodies[number]?).bind id).getD .null

/-- How often each collection stands in another one, or at the root. -/
def counts (bodies : Array (Option Value)) (root : Value) : Array Nat :=
  let tally (counts : Array Nat) (number : Nat) : Array Nat := counts.modify number (· + 1)
  bodies.foldl (fun counts found => ((found.map inner).getD []).foldl tally counts)
    ((number? root).toList.foldl tally (Array.replicate bodies.size 0))

/-- A datum with all collections in place of their numbers. -/
def unfold (bodies : Array (Option Value)) : (fuel : Nat) → Value → Value
  | 0, value => value
  | fuel + 1, value =>
    match value with
    | .numbered number => mapParts (unfold bodies fuel) (body bodies number)
    | other => other

/-- The data that have been made. Where every collection stands in one place only, the numbers are
not needed. -/
def data (making : Making) (root : Value) : Data :=
  let bodies := making.bodies
  if (counts bodies root).any (1 < ·) then
    { root, parts := (List.range bodies.size).filterMap fun number =>
        ((bodies[number]?).bind id).map fun found => (number, found) }
  else { root := unfold bodies (bodies.size + 1) root }

end Making

/-- The data of a document. -/
def Document.data? (document : Document) : Except Fault Data := do
  let size := document.nodes.size
  let (root, making) ← (do
    let root ← Making.value document.root
    Making.fillAll (Merge.limit document.nodes) (size + 1)
    return root : Making.Step Value).run ⟨document.nodes, Array.replicate size none, []⟩
  return making.data root

/-- The data that a text holds; null where it holds no document. -/
def load (text : List Char) : Except Fault Data := do
  match ← Document.ofTokens? (Token.ofText text) with
  | none => return {}
  | some document => document.data?

end CypherAssist.Yaml
