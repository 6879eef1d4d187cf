import CypherAssist.Grammar.Cypher
import CypherAssist.Grammar.Parser
import CypherAssist.Token.Basic

/-! Candidates: the rules and tokens that the grammar accepts in place of the token under the
caret. Every path through the grammar is walked over the visible tokens before the caret. A
preferred rule is reported as a whole, with the rules around it, when a path arrives at it at the
caret or is still inside it there; other paths report the token they wait for. -/
namespace CypherAssist.Grammar
open Token

/-- A rule that may stand at the caret: the stream index of the token it starts at, and the rules
that enclose it, outermost first. An index of −1 stands for the place ahead of the stream. -/
structure RuleCandidate where
  rule : Rule
  start : Int
  enclosing : List Rule
  deriving DecidableEq, Repr

/-- A token that may stand at the caret and the tokens that come straight after it. -/
structure TokenCandidate where
  kind : Kind
  followUp : List Kind := []
  isOptional : Bool := false
  deriving DecidableEq, Repr

/-- At most one candidate for each rule and each kind of token, in the order they were found. -/
structure Candidates where
  rules : List RuleCandidate := []
  tokens : List TokenCandidate := []
  deriving DecidableEq, Repr

namespace Candidates

/-- Adds a rule, unless it is there already. -/
def addRule (candidates : Candidates) (candidate : RuleCandidate) : Candidates :=
  if candidates.rules.any fun known => known.rule = candidate.rule then candidates
  else { candidates with rules := candidates.rules ++ [candidate] }

/-- Adds a token, unless it is there already. -/
def addToken (candidates : Candidates) (candidate : TokenCandidate) : Candidates :=
  if candidates.tokens.any fun known => known.kind = candidate.kind then candidates
  else { candidates with tokens := candidates.tokens ++ [candidate] }

end Candidates

/-- A rule that is open on a path, and the position where it started. -/
structure Frame where
  rule : Rule
  start : Nat
  deriving DecidableEq, Repr

/-- What a walk is given: the visible tokens up to and including the one under the caret, the rules
to report as a whole and the kinds never reported. -/
structure Caret where
  tokens : Array Token
  preferred : List Rule
  ignored : List Kind

namespace Caret

/-- The position of the token under the caret. -/
def position (caret : Caret) : Nat := caret.tokens.size - 1

/-- Whether a rule is reported as a whole. -/
def prefers (caret : Caret) (rule : Rule) : Bool := caret.preferred.contains rule

/-- A rule candidate that starts at a position inside the given frames, innermost first. -/
def ruleAt (caret : Caret) (rule : Rule) (position : Nat) (stack : List Frame) : RuleCandidate :=
  { rule
    start := (caret.tokens[position]?.map (·.index)).getD 0
    enclosing := stack.reverse.map (·.rule) }

end Caret

/-- The kind of an element that is a single token not to be ignored. -/
def plainKind? (ignored : List Kind) : Element → Option Kind
  | .token kind => if ignored.contains kind then none else some kind
  | _ => none

/-- The kinds of an element that is made of such tokens only, else none. -/
def plainKinds (ignored : List Kind) (element : Element) : List Kind :=
  let items := match element with
    | .sequence items => items
    | other => [other]
  (items.mapM (plainKind? ignored)).getD []

/-- The tokens that come straight after a token, and whether they may be left out: the run of
plain tokens that must follow, else the plain tokens of an option that may. -/
def followUp (ignored : List Kind) (follow : List Element) : List Kind × Bool :=
  match (follow.map (plainKind? ignored)).takeWhile Option.isSome with
  | [] =>
    match follow with
    | .optional item :: _ =>
      let kinds := plainKinds ignored item
      (kinds, !kinds.isEmpty)
    | _ => ([], false)
  | kinds => (kinds.filterMap id, false)

/-- The positions that lie in one of two ascending lists. -/
def union : List Nat → List Nat → List Nat
  | [], others => others
  | position :: rest, others =>
    others.takeWhile (· < position) ++
      position :: union rest (others.dropWhile (· ≤ position))

/-- What a walk has found: the ends recorded for each rule and position, and the candidates. -/
structure WalkState where
  recorded : RuleTable (List Nat) := {}
  candidates : Candidates := {}

/-- A step of a walk changes the state or gives up. -/
abbrev WalkM := StateT WalkState (Except Obstacle)

namespace WalkState

/-- Notes a candidate for the token under the caret. Inside a preferred rule the innermost such
rule is the candidate. -/
def report (state : WalkState) (caret : Caret) (kind : Kind) (stack : List Frame)
    (follow : List Element) : WalkState :=
  match stack.dropWhile fun frame => !caret.prefers frame.rule with
  | frame :: outer =>
    { state with
      candidates := state.candidates.addRule (caret.ruleAt frame.rule frame.start outer) }
  | [] =>
    if caret.ignored.contains kind then state
    else
      let (kinds, isOptional) := followUp caret.ignored follow
      { state with candidates := state.candidates.addToken ⟨kind, kinds, isOptional⟩ }

/-- Records where a rule ends that starts at a position. -/
def record (state : WalkState) (rule : Rule) (position : Nat) (ends : List Nat) : WalkState :=
  { state with recorded := state.recorded.insert (rule, position) ends }

end WalkState

/-- Repeats a step from each position of the frontier until no new position is reached. -/
def reachAll (step : Nat → WalkM (List Nat)) : Nat → List Nat → List Nat → WalkM (List Nat)
  | 0, reached, _ => pure reached
  | rounds + 1, reached, frontier =>
    match frontier with
    | [] => pure reached
    | _ :: _ => do
      let found ← frontier.foldlM (fun found start => do return union found (← step start)) []
      let fresh := found.filter fun position => !reached.contains position
      reachAll step rounds (union reached fresh) fresh

namespace Element

mutual

/-- The positions that an element can reach from one. `follow` holds the elements that come after
it inside the rule, and `descend` walks the rules referred to. -/
def walk (caret : Caret) (descend : Rule → Nat → List Frame → WalkM (List Nat)) :
    Element → Nat → List Frame → List Element → WalkM (List Nat)
  | .token kind, position, stack, follow =>
    if position = caret.position then do
      modify (·.report caret kind stack follow)
      return []
    else if caret.tokens[position]?.map (·.kind) = some kind then pure [position + 1]
    else pure []
  | .reference target, position, stack, _ => descend target position stack
  | .sequence items, position, stack, follow =>
    walkInOrder caret descend items [position] stack follow
  | .choice options, position, stack, follow =>
    walkAny caret descend options position stack follow []
  | .optional item, position, stack, follow => do
    return union [position] (← item.walk caret descend position stack follow)
  | .repeated item, position, stack, follow =>
    reachAll (fun start => item.walk caret descend start stack (.repeated item :: follow))
      (caret.tokens.size + 1) [position] [position]

/-- The positions that elements reach one after the other. -/
def walkInOrder (caret : Caret) (descend : Rule → Nat → List Frame → WalkM (List Nat)) :
    List Element → List Nat → List Frame → List Element → WalkM (List Nat)
  | [], positions, _, _ => pure positions
  | item :: rest, positions, stack, follow => do
    let reached ← positions.foldlM (fun reached start => do
      return union reached (← item.walk caret descend start stack (rest ++ follow))) []
    walkInOrder caret descend rest reached stack follow

/-- The positions that some option reaches. -/
def walkAny (caret : Caret) (descend : Rule → Nat → List Frame → WalkM (List Nat)) :
    List Element → Nat → List Frame → List Element → List Nat → WalkM (List Nat)
  | [], _, _, _, reached => pure reached
  | option :: rest, position, stack, follow, reached => do
    let more ← option.walk caret descend position stack follow
    walkAny caret descend rest position stack follow (union reached more)

end

end Element

/-- The positions that a rule reaches from one. A preferred rule at the caret is reported and not
entered; any other rule is entered once at each position. -/
def walkRule (grammar : Grammar) (caret : Caret) :
    Nat → Rule → Nat → List Frame → WalkM (List Nat)
  | 0, _, _, _ => throw .tooDeep
  | depth + 1, rule, position, stack =>
    if position = caret.position && caret.prefers rule then do
      modify fun state =>
        { state with
          candidates := state.candidates.addRule (caret.ruleAt rule position stack) }
      return []
    else do
      match (← get).recorded[(rule, position)]? with
      | some ends => return ends
      | none =>
        modify (·.record rule position [])
        match grammar rule with
        | none => throw (.undefined rule)
        | some element =>
          let ends ← element.walk caret (walkRule grammar caret depth) position
            (⟨rule, position⟩ :: stack) []
          modify (·.record rule position ends)
          return ends

/-- The visible tokens up to the first one whose index is not below the caret. -/
def tokensUntil (index : Nat) : List Token → List Token
  | [] => []
  | token :: rest =>
    if token.isHidden then tokensUntil index rest
    else if index ≤ token.index || token.isEnd then [token]
    else token :: tokensUntil index rest

/-- The candidates at the token with the given stream index, or the next visible one. A stream
without visible tokens is not walked. -/
def collect (grammar : Grammar) (start : Rule) (stream : List Token) (index : Nat)
    (preferred : List Rule) (ignored : List Kind) (depth : Nat) : Except Obstacle Candidates :=
  let tokens := tokensUntil index stream
  if tokens.isEmpty then return {}
  else do
    let (_, state) ← (walkRule grammar ⟨tokens.toArray, preferred, ignored⟩ depth start 0 []).run {}
    return state.candidates

end CypherAssist.Grammar
