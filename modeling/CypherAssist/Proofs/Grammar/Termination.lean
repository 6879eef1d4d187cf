import CypherAssist.Proofs.Grammar.Tour

/-! Parser and collector come to their end on every grammar that defines the rules it refers to:
left-recursive, nullable and ambiguous rules are entered once at each position as any other rule is,
and a repetition of what may be empty stops where it finds no further position. -/
namespace CypherAssist.Grammar
open Token

variable {grammar : Grammar} {kinds : Array Kind} {caret : Caret}

/-- The states of a parser in use: a new one, or one that a run for some rule has left. -/
inductive InUse (grammar : Grammar) (kinds : Array Kind) : ParserState → Prop where
  | fresh : InUse grammar kinds {}
  | again (before : InUse grammar kinds state)
      (run : Runs grammar kinds (.rule rule position) state found after inside) :
      InUse grammar kinds after

theorem inRange_of_inUse {state : ParserState} (used : InUse grammar kinds state) :
    state.InRange kinds.size := by
  induction used with
  | fresh =>
    intro rule position found present
    simp at present
  | again _ run ih => exact (ranged_of_runs run (onward_refl ..) ih).2.1

/-- The states in the course of a walk: a new one, one in which a rule has just been entered, or one
that some part of the walk has left. -/
inductive OnWalk (grammar : Grammar) (caret : Caret) : WalkState → Prop where
  | fresh : OnWalk grammar caret {}
  | entered (before : OnWalk grammar caret state) (rule : Rule) (position : Nat) :
      OnWalk grammar caret (state.record rule position [])
  | behind (before : OnWalk grammar caret state) (start : stage.Within caret)
      (tour : Tours grammar caret stage state ends after inside) : OnWalk grammar caret after

theorem inRange_of_onWalk {state : WalkState} (walked : OnWalk grammar caret state) :
    state.InRange caret := by
  induction walked with
  | fresh =>
    intro rule position ends present
    simp at present
  | entered _ _ _ ih => exact WalkState.inRange_record ih within_nil
  | behind _ start tour ih => exact (within_of_tours tour start ih).2.1

/-- Work that comes to its end, and in one way only. It enters each rule at most once at each
position, none that had been entered before and none behind a limit, which leaves few to enter. -/
structure Ends {Value State : Type} (works : Value → State → List (Rule × Nat) → Prop)
    (before : Set (Rule × Nat)) (limit : Nat) (value : Value) (after : State)
    (inside : List (Rule × Nat)) : Prop where
  run : works value after inside
  only : ∀ other later trace, works other later trace →
    other = value ∧ later = after ∧ trace = inside
  once : inside.Nodup
  new : ∀ key ∈ inside, key ∉ before
  low : ∀ key ∈ inside, key.2 ≤ limit
  few : inside.length < fullDepth limit

theorem ends_of_enters {Value State : Type} {works : Value → State → List (Rule × Nat) → Prop}
    {before behind : Set (Rule × Nat)} {limit : Nat} {value : Value} {after : State}
    {inside : List (Rule × Nat)} (run : works value after inside)
    (unique : ∀ other later trace, works other later trace →
      value = other ∧ after = later ∧ inside = trace)
    (enters : Enters before inside behind) (low : ∀ key ∈ inside, key.2 ≤ limit) :
    Ends works before limit value after inside where
  run := run
  only other later trace also := by
    obtain ⟨rfl, rfl, rfl⟩ := unique other later trace also
    exact ⟨rfl, rfl, rfl⟩
  once := enters.once
  new := enters.new
  low := low
  few := (length_le_unentered enters low).trans_lt (unentered_lt_fullDepth ..)

/-- The parser in use parses any rule from any position. -/
theorem parser_ends (closed : Closed grammar) {rule : Rule} (defined : (grammar rule).isSome)
    (position : Nat) {state : ParserState} (used : InUse grammar kinds state) :
    ∃ found after inside,
      Ends (Runs grammar kinds (.rule rule position) state) state.entries (max position kinds.size)
        (Outcomes.asParts found) after inside ∧
      ∀ depth, fullDepth (max position kinds.size) ≤ depth →
        parseRule grammar kinds depth rule position state = .ok (found, after) := by
  have inRange := inRange_of_inUse used
  have completes (depth) (deep : fullDepth (max position kinds.size) ≤ depth) :=
    completes_rule closed depth rule position defined (Nat.le_max_left ..) (Nat.le_max_right ..) ∅
      ((unentered_lt_fullDepth ..).trans_le deep) state inRange (Set.empty_subset _)
  obtain ⟨found, after, inside, -, run⟩ := completes _ (Nat.le_refl _)
  obtain ⟨-, -, onward⟩ := ranged_of_runs run (onward_refl ..) inRange
  refine ⟨found, after, inside, ends_of_enters run (fun _ _ _ => runs_unique run)
    (enters_of_runs run) fun key member => ?_, fun depth deep => ?_⟩
  · rcases onward key member with same | further <;> omega
  · -- A greater depth completes a run as well, and there is only one.
    obtain ⟨also, later, trace, ran, other⟩ := completes depth deep
    obtain ⟨same, rfl, -⟩ := runs_unique run other
    rw [ran, asParts_injective same]

/-- What the collector works with: the visible tokens up to the one under the caret. -/
def caretIn (stream : List Token) (index : Nat) (preferred : List Rule) (ignored : List Kind) :
    Caret :=
  ⟨(tokensUntil index stream).toArray, preferred, ignored⟩

/-- The collector finds the candidates at any token; there are none where it has no token to stand
at. -/
theorem collector_ends (closed : Closed grammar) {rule : Rule} (defined : (grammar rule).isSome)
    (stream : List Token) (index : Nat) (preferred : List Rule) (ignored : List Kind) :
    ∃ ends after inside,
      Ends (Tours grammar (caretIn stream index preferred ignored) (.rule rule 0 []) {})
        (WalkState.entries {}) (caretIn stream index preferred ignored).position ends after
        inside ∧
      (∀ key ∈ inside, ¬ (caretIn stream index preferred ignored).Reports key.1 key.2) ∧
      ∀ depth, fullDepth (caretIn stream index preferred ignored).position ≤ depth →
        collect grammar rule stream index preferred ignored depth =
          .ok (if tokensUntil index stream = [] then {} else after.candidates) := by
  have inRange := inRange_of_onWalk
    (.fresh : OnWalk grammar (caretIn stream index preferred ignored) {})
  have finishes (depth)
      (deep : fullDepth (caretIn stream index preferred ignored).position ≤ depth) :=
    finishes_rule closed depth rule 0 [] defined (Nat.zero_le _) ∅
      ((unentered_lt_fullDepth ..).trans_le deep) {} inRange (Set.empty_subset _)
  obtain ⟨ends, after, inside, -, tour⟩ := finishes _ (Nat.le_refl _)
  obtain ⟨-, -, low⟩ := within_of_tours tour (Nat.zero_le _) inRange
  refine ⟨ends, after, inside, ends_of_enters tour (fun _ _ _ => tours_unique tour)
    (enters_of_tours tour) low, not_reports_of_tours tour, fun depth deep => ?_⟩
  obtain ⟨also, later, trace, ran, other⟩ := finishes depth deep
  obtain ⟨rfl, rfl, -⟩ := tours_unique tour other
  rw [caretIn] at ran
  by_cases visible : tokensUntil index stream = []
  · rw [if_pos visible, collect, visible]
    rfl
  · rw [if_neg visible, collect_of_visible visible, ran]
    rfl

/-- On every grammar that defines the rules it refers to, parser and collector come to their end:
from any rule, at any position, for any tokens and any caret, whatever the parser has been used for.
They enter each rule at most once at each position, and only where it has not been entered before;
the collector does not enter a preferred rule at the caret. The rounds of a repetition go on from
different positions. So there is a depth that suffices. -/
theorem interpreters_terminate (closed : Closed grammar) {rule : Rule}
    (defined : (grammar rule).isSome) :
    (∀ kinds position state, InUse grammar kinds state → ∃ found after inside,
      Ends (Runs grammar kinds (.rule rule position) state) state.entries (max position kinds.size)
        (Outcomes.asParts found) after inside ∧
      ∀ depth, fullDepth (max position kinds.size) ≤ depth →
        parseRule grammar kinds depth rule position state = .ok (found, after)) ∧
    (∀ kinds item place state found after inside,
      Runs grammar kinds (.element (.repeated item) place) state found after inside →
      ∃ frontiers, Loops (Turn.Leads grammar kinds item) Turn.ahead
          ⟨[(.upTo place, [])], [(place, [])], state⟩ frontiers ⟨found, [], after⟩ ∧
        frontiers.Pairwise List.Disjoint) ∧
    (∀ stream index preferred ignored, ∃ ends after inside,
      Ends (Tours grammar (caretIn stream index preferred ignored) (.rule rule 0 []) {})
        (WalkState.entries {}) (caretIn stream index preferred ignored).position ends after
        inside ∧
      (∀ key ∈ inside, ¬ (caretIn stream index preferred ignored).Reports key.1 key.2) ∧
      ∀ depth, fullDepth (caretIn stream index preferred ignored).position ≤ depth →
        collect grammar rule stream index preferred ignored depth =
          .ok (if tokensUntil index stream = [] then {} else after.candidates)) ∧
    (∀ caret item place stack follow state ends after inside,
      place ≤ caret.position → OnWalk grammar caret state →
      Tours grammar caret (.element (.repeated item) place stack follow) state ends after inside →
      ∃ frontiers, Loops (Lap.Leads grammar caret item stack (.repeated item :: follow))
          Lap.frontier ⟨[place], [place], state⟩ frontiers ⟨ends, [], after⟩ ∧
        frontiers.Pairwise List.Disjoint) :=
  ⟨fun _ position _ used => parser_ends closed defined position used,
    fun _ _ _ _ _ _ _ run => repetition_loops run, collector_ends closed defined,
    fun _ _ _ _ _ _ _ _ _ low walked tour => repetition_laps low (inRange_of_onWalk walked) tour⟩

/-- Statements that begin with statements, or else repeat a word that may be left out. -/
def knotted : Grammar
  | .statements => some (.choice [.sequence [Rule.statements, Symbol.semicolon],
      .repeated (.optional Keyword.RETURN)])
  | _ => none

/-- A rule that begins with itself, and one word that a repetition of nothing reads in many ways,
keep neither parser nor collector from their end. -/
theorem knotted_terminates :
    Closed knotted ∧ (∃ found after, parseRule knotted #[.keyword .RETURN, .symbol .semicolon]
      (fullDepth 2) .statements 0 {} = .ok (found, after)) ∧
    ∃ candidates, collect knotted .statements (Stream.ofText "RETURN".toList).toList 0 [] []
      (fullDepth 0) = .ok candidates := by
  have closed : Closed knotted := by
    rintro rule target ⟨element, defined, mentions⟩
    cases rule <;> cases defined
    have same : target = .statements := by
      simpa [Element.references, Element.referencesOfAll] using mentions
    exact same ▸ rfl
  have held : (caretIn (Stream.ofText "RETURN".toList).toList 0 [] []).position = 0 := by
    decide +kernel
  have defined : (knotted .statements).isSome := rfl
  obtain ⟨parses, -, collects, -⟩ := interpreters_terminate closed defined
  obtain ⟨found, after, -, -, parsed⟩ :=
    parses #[.keyword .RETURN, .symbol .semicolon] 0 {} .fresh
  obtain ⟨_, _, _, -, -, collected⟩ :=
    collects (Stream.ofText "RETURN".toList).toList 0 [] []
  rw [held] at collected
  exact ⟨closed, ⟨found, after, parsed _ (Nat.le_refl _)⟩, _,
    collected _ (Nat.le_refl _)⟩

end CypherAssist.Grammar
