import CypherAssist.Grammar.Cypher
import CypherAssist.Grammar.Derivation
import CypherAssist.Grammar.RuleTable

/-! Parsing of visible tokens by a grammar. All readings are followed at once, with one derivation
kept for each end. What a rule derives at a position is recorded, and while it is being worked out
it counts as deriving nothing; so no rule is entered twice at one position, and parsing ends for
every grammar, left-recursive ones included. -/
namespace CypherAssist.Grammar
open Token

/-- Why parsing gave up. -/
inductive Obstacle where
  | undefined (rule : Rule)
  | tooDeep
  deriving DecidableEq, Repr

/-- What a parser knows: the derivations recorded so far, the farthest position at which a token
was asked for, and the kinds of token asked for there. -/
structure ParserState where
  recorded : RuleTable (Outcomes Derivation) := {}
  farthest : Nat := 0
  expected : List Kind := []

/-- A parser step changes the state or gives up. -/
abbrev ParserM := StateT ParserState (Except Obstacle)

namespace ParserState

/-- Notes that a kind of token was asked for. Only the farthest position counts. -/
def expect (state : ParserState) (position : Nat) (kind : Kind) : ParserState :=
  if state.farthest < position then { state with farthest := position, expected := [kind] }
  else if position = state.farthest ∧ kind ∉ state.expected then
    { state with expected := state.expected ++ [kind] }
  else state

/-- Records what a rule derives at a position. -/
def record (state : ParserState) (rule : Rule) (position : Nat) (found : Outcomes Derivation) :
    ParserState :=
  { state with recorded := state.recorded.insert (rule, position) found }

end ParserState

/-- Outcomes of matching an element hold the children that the element adds to its rule. -/
abbrev Parts := Outcomes (List Derivation)

namespace Parts

/-- The children so far come before those that the next outcomes add. -/
def behind (children : List Derivation) (more : Parts) : Parts :=
  more.map fun outcome => (outcome.1, children ++ outcome.2)

/-- Extends every outcome by one more step. One that the input cut short stays as it is. -/
def extend (step : Nat → ParserM Parts) (current : Parts) : ParserM Parts :=
  current.foldlM (fun following outcome =>
    match outcome.1 with
    | .cut => pure (following.merge [outcome])
    | .upTo position => do
      return following.merge (behind outcome.2 (← step position))) []

/-- An outcome that ends in front of a position can be continued there. -/
def continuing? (outcome : Reach × List Derivation) : Option (Nat × List Derivation) :=
  match outcome.1 with
  | .cut => none
  | .upTo position => some (position, outcome.2)

/-- Repeats a step from each position of the frontier. The next frontier holds the positions seen
for the first time, so the rounds are no more than the positions. -/
def iterate (step : Nat → ParserM Parts) :
    Nat → Parts → List (Nat × List Derivation) → ParserM Parts
  | 0, known, _ => pure known
  | rounds + 1, known, frontier =>
    match frontier with
    | [] => pure known
    | _ :: _ => do
      let grown ← frontier.foldlM (fun grown outcome => do
        return grown.merge (behind outcome.2 (← step outcome.1))) known
      iterate step rounds grown ((grown.drop known.length).filterMap continuing?)

end Parts

namespace Element
open Parts

mutual

/-- The outcomes of an element at a position. A token beyond the end of the input cuts the
derivation short; `descend` derives the rules referred to. -/
def parts (kinds : Array Kind) (descend : Rule → Nat → ParserM (Outcomes Derivation)) :
    Element → Nat → ParserM Parts
  | .token kind, position =>
    match kinds[position]? with
    | none => do
      modify (·.expect position kind)
      return [(.cut, [])]
    | some found =>
      if found = kind then pure [(.upTo (position + 1), [.token position])]
      else do
        modify (·.expect position kind)
        return []
  | .reference target, position => do
    return (← descend target position).map fun outcome => (outcome.1, [outcome.2])
  | .sequence items, position => partsInOrder kinds descend items [(.upTo position, [])]
  | .choice options, position => partsOfAny kinds descend options position []
  | .optional item, position => do
    return (← item.parts kinds descend position).merge [(.upTo position, [])]
  | .repeated item, position =>
    iterate (fun start => item.parts kinds descend start) (kinds.size + 2)
      [(.upTo position, [])] [(position, [])]

/-- The outcomes of elements one after the other, continuing those of the elements before. -/
def partsInOrder (kinds : Array Kind) (descend : Rule → Nat → ParserM (Outcomes Derivation)) :
    List Element → Parts → ParserM Parts
  | [], current => pure current
  | item :: rest, current => do
    let following ← extend (fun start => item.parts kinds descend start) current
    partsInOrder kinds descend rest following

/-- The outcomes of several options, the earlier options first. -/
def partsOfAny (kinds : Array Kind) (descend : Rule → Nat → ParserM (Outcomes Derivation)) :
    List Element → Nat → Parts → ParserM Parts
  | [], _, found => pure found
  | option :: rest, position, found => do
    let more ← option.parts kinds descend position
    partsOfAny kinds descend rest position (found.merge more)

end

end Element

/-- Closes the rule over each outcome of its right-hand side. -/
def Outcomes.close (rule : Rule) (found : Parts) : Outcomes Derivation :=
  found.map fun outcome => (outcome.1, .node rule (outcome.1 = .cut) outcome.2)

/-- The derivations of a rule at a position. `depth` bounds the number of rules open at once. -/
def parseRule (grammar : Grammar) (kinds : Array Kind) :
    Nat → Rule → Nat → ParserM (Outcomes Derivation)
  | 0, _, _ => throw .tooDeep
  | depth + 1, rule, position => do
    match (← get).recorded[(rule, position)]? with
    | some found => return found
    | none =>
      modify (·.record rule position [])
      match grammar rule with
      | none => throw (.undefined rule)
      | some element =>
        let found := Outcomes.close rule
          (← element.parts kinds (parseRule grammar kinds depth) position)
        modify (·.record rule position found)
        return found

/-- A depth that no parse reaches: each rule is open at most once at each position. -/
def fullDepth (size : Nat) : Nat :=
  Rule.all.length * (size + 2) + 1

/-- Parses with a new parser, and gives also what the parser has learned. -/
def parseFrom (grammar : Grammar) (kinds : Array Kind) (depth : Nat) (rule : Rule)
    (position : Nat) : Except Obstacle (Outcomes Derivation × ParserState) :=
  (parseRule grammar kinds depth rule position).run {}

end CypherAssist.Grammar
