import CypherAssist.Yaml.Node

/-! Merge keys. A mapping takes over the entries of the mapping, or of each mapping in the list,
that stands under a merge key; they come before its own entries, so that its own values count where
a key is the same. -/
namespace CypherAssist.Yaml.Merge

/-- The entries of a mapping. -/
def entriesOf (nodes : Array Node) (number : Nat) : List (Nat × Nat) :=
  match nodes[number]? with
  | some (.mapping _ entries) => entries
  | _ => []

/-- A mapping with other entries. -/
def withEntries (nodes : Array Node) (number : Nat) (entries : List (Nat × Nat)) : Array Node :=
  match nodes[number]? with
  | some (.mapping isStandard _) => nodes.setIfInBounds number (.mapping isStandard entries)
  | _ => nodes

/-- Whether a key is a merge key. -/
def isMerge (nodes : Array Node) (key : Nat) : Bool :=
  match nodes[key]? with
  | some (.scalar .merge) => true
  | _ => false

/-- The default key is text where it stands as a key. -/
def markDefault (nodes : Array Node) (key : Nat) : Array Node :=
  match nodes[key]? with
  | some (.scalar .default) => nodes.setIfInBounds key (.scalar (.value (.text "=")))
  | _ => nodes

/-- Whether a node is a mapping. -/
def isMapping (nodes : Array Node) (number : Nat) : Bool :=
  match nodes[number]? with
  | some (.mapping ..) => true
  | _ => false

/-- The mappings under a merge key: the node itself, or the items of a list. -/
def sources? (nodes : Array Node) (number : Nat) : Option (List Nat) :=
  match nodes[number]? with
  | some (.mapping ..) => some [number]
  | some (.sequence _ items) => if items.all (isMapping nodes) then some items else none
  | _ => none

/-- Carries out the merges of a mapping, and first those of the mappings from which it takes over.
Of several in one list the entries of the last one come first. -/
def mergeInto : (fuel : Nat) → Array Node → Nat → Except Fault (Array Node)
  | 0, _, _ => .error .invalid
  | fuel + 1, nodes, number =>
    let entries := entriesOf nodes number
    match entries.findIdx? fun entry => isMerge nodes entry.1 with
    | none => .ok (entries.foldl (fun nodes entry => markDefault nodes entry.1) nodes)
    | some place => do
      let source := (entries[place]?.map (·.2)).getD number
      let nodes := withEntries nodes number (entries.eraseIdx place)
      let sources ← Fault.require (sources? nodes source)
      let nodes ← sources.foldlM (mergeInto fuel) nodes
      let taken := sources.reverse.flatMap (entriesOf nodes)
      let nodes ← mergeInto fuel nodes number
      return withEntries nodes number (taken ++ entriesOf nodes number)

/-- A number of merges that no mapping of a document exceeds. -/
def limit (nodes : Array Node) : Nat :=
  nodes.foldl (fun count node => match node with
    | .mapping _ entries => count + entries.length
    | _ => count) 2

end CypherAssist.Yaml.Merge
