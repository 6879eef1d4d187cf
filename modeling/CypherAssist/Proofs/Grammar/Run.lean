import CypherAssist.Proofs.Grammar.Enclosing
import CypherAssist.Proofs.Grammar.Genuine

/-! The work of the parser told without any bound: rules call each other as deep as they must, and a
repetition goes on until nothing new is found. A run is finite, and it lists the rules that it
enters with their positions. Each is listed once, since it is entered only where it has no record
and has one from then on; so what is left to enter bounds the depth, and the positions not seen yet
bound the rounds of a repetition. -/
namespace CypherAssist.Grammar
open Token Outcomes Parts

/-- What a parser is at work on: a rule, an element, items in order behind the outcomes so far,
options beside the outcomes so far, an item behind each of several outcomes, and the rounds of a
repetition. -/
inductive Task where
  | rule (rule : Rule) (position : Nat)
  | element (element : Element) (position : Nat)
  | inOrder (items : List Element) (current : Parts)
  | options (options : List Element) (position : Nat) (found : Parts)
  | each (item : Element) (current found : Parts)
  | rounds (item : Element) (known : Parts) (frontier : List (Nat × List Derivation))

/-- The derivations of a rule as the parts of an element that refers to it. -/
def Outcomes.asParts (found : Outcomes Derivation) : Parts :=
  found.map fun outcome => (outcome.1, [outcome.2])

theorem asParts_injective : Function.Injective Outcomes.asParts := by
  apply List.map_injective_iff.mpr
  rintro ⟨reach, derivation⟩ ⟨other, also⟩ same
  cases same
  rfl

/-- The outcomes that a round of a repetition goes on from. -/
def resumed (frontier : List (Nat × List Derivation)) : Parts :=
  frontier.map fun outcome => (.upTo outcome.1, outcome.2)

/-- A run of the parser from one state to another, with what it finds and the rules that it enters.
-/
inductive Runs (grammar : Grammar) (kinds : Array Kind) :
    Task → ParserState → Parts → ParserState → List (Rule × Nat) → Prop where
  | recalled (known : state.recorded[(rule, position)]? = some found) :
      Runs grammar kinds (.rule rule position) state found.asParts state []
  | entered (new : state.recorded[(rule, position)]? = none)
      (defined : grammar rule = some element)
      (body : Runs grammar kinds (.element element position) (state.record rule position [])
        found after inside) :
      Runs grammar kinds (.rule rule position) state (Outcomes.close rule found).asParts
        (after.record rule position (Outcomes.close rule found)) ((rule, position) :: inside)
  | beyond {kind : Kind} (outside : kinds[position]? = none) :
      Runs grammar kinds (.element (.token kind) position) state [(.cut, [])]
        (state.expect position kind) []
  | taken {kind : Kind} (here : kinds[position]? = some kind) :
      Runs grammar kinds (.element (.token kind) position) state
        [(.upTo (position + 1), [.token position])] state []
  | refused {kind other : Kind} (here : kinds[position]? = some other) (differs : other ≠ kind) :
      Runs grammar kinds (.element (.token kind) position) state []
        (state.expect position kind) []
  | reference (called : Runs grammar kinds (.rule target position) state found after inside) :
      Runs grammar kinds (.element (.reference target) position) state found after inside
  | sequence (inner : Runs grammar kinds (.inOrder items [(.upTo position, [])]) state found after
        inside) :
      Runs grammar kinds (.element (.sequence items) position) state found after inside
  | choice (inner : Runs grammar kinds (.options options position []) state found after inside) :
      Runs grammar kinds (.element (.choice options) position) state found after inside
  | optional (inner : Runs grammar kinds (.element item position) state found after inside) :
      Runs grammar kinds (.element (.optional item) position) state
        (found.merge [(.upTo position, [])]) after inside
  | repeated (inner : Runs grammar kinds (.rounds item [(.upTo position, [])] [(position, [])])
        state found after inside) :
      Runs grammar kinds (.element (.repeated item) position) state found after inside
  | lastItem : Runs grammar kinds (.inOrder [] current) state current state []
  | nextItem (first : Runs grammar kinds (.each item current []) state following middle inside)
      (later : Runs grammar kinds (.inOrder rest following) middle found after more) :
      Runs grammar kinds (.inOrder (item :: rest) current) state found after (inside ++ more)
  | lastOption : Runs grammar kinds (.options [] position known) state known state []
  | nextOption
      (first : Runs grammar kinds (.element option position) state added middle inside)
      (later : Runs grammar kinds (.options rest position (known.merge added)) middle found after
        more) :
      Runs grammar kinds (.options (option :: rest) position known) state found after
        (inside ++ more)
  | noOutcome : Runs grammar kinds (.each item [] known) state known state []
  | cutOutcome (later : Runs grammar kinds (.each item rest (known.merge [(.cut, children)])) state
        found after inside) :
      Runs grammar kinds (.each item ((.cut, children) :: rest) known) state found after inside
  | nextOutcome (first : Runs grammar kinds (.element item position) state added middle inside)
      (later : Runs grammar kinds (.each item rest (known.merge (behind children added))) middle
        found after more) :
      Runs grammar kinds (.each item ((.upTo position, children) :: rest) known) state found after
        (inside ++ more)
  | lastRound : Runs grammar kinds (.rounds item known []) state known state []
  | nextRound {frontier : List (Nat × List Derivation)} (some : frontier ≠ [])
      (first : Runs grammar kinds (.each item (resumed frontier) known) state grown middle inside)
      (later : Runs grammar kinds (.rounds item grown (fresh known grown)) middle found after
        more) :
      Runs grammar kinds (.rounds item known frontier) state found after (inside ++ more)

variable {grammar : Grammar} {kinds : Array Kind} {task : Task} {state after : ParserState}
  {found : Parts} {inside : List (Rule × Nat)}

/-- A task has one run. -/
theorem runs_unique (run : Runs grammar kinds task state found after inside)
    (other : Runs grammar kinds task state also later trace) :
    found = also ∧ after = later ∧ inside = trace := by
  induction run generalizing also later trace with
  | recalled known =>
    cases other with
    | recalled same =>
      cases known.symm.trans same
      exact ⟨rfl, rfl, rfl⟩
    | entered new => cases known.symm.trans new
  | entered new defined _ ih =>
    cases other with
    | recalled known => cases known.symm.trans new
    | entered _ same body =>
      cases defined.symm.trans same
      obtain ⟨rfl, rfl, rfl⟩ := ih body
      exact ⟨rfl, rfl, rfl⟩
  | beyond outside =>
    cases other with
    | beyond => exact ⟨rfl, rfl, rfl⟩
    | taken here | refused here => cases outside.symm.trans here
  | taken here =>
    cases other with
    | beyond outside => cases outside.symm.trans here
    | taken => exact ⟨rfl, rfl, rfl⟩
    | refused same differs =>
      cases here.symm.trans same
      exact absurd rfl differs
  | refused here differs =>
    cases other with
    | beyond outside => cases outside.symm.trans here
    | taken same =>
      cases here.symm.trans same
      exact absurd rfl differs
    | refused => exact ⟨rfl, rfl, rfl⟩
  | reference _ ih =>
    cases other with
    | reference called => exact ih called
  | sequence _ ih =>
    cases other with
    | sequence inner => exact ih inner
  | choice _ ih =>
    cases other with
    | choice inner => exact ih inner
  | optional _ ih =>
    cases other with
    | optional inner =>
      obtain ⟨rfl, rfl, rfl⟩ := ih inner
      exact ⟨rfl, rfl, rfl⟩
  | repeated _ ih =>
    cases other with
    | repeated inner => exact ih inner
  | lastItem | lastOption | noOutcome =>
    cases other
    exact ⟨rfl, rfl, rfl⟩
  | nextItem _ _ ihFirst ihLater =>
    cases other with
    | nextItem first later =>
      obtain ⟨rfl, rfl, rfl⟩ := ihFirst first
      obtain ⟨rfl, rfl, rfl⟩ := ihLater later
      exact ⟨rfl, rfl, rfl⟩
  | nextOption _ _ ihFirst ihLater =>
    cases other with
    | nextOption first later =>
      obtain ⟨rfl, rfl, rfl⟩ := ihFirst first
      obtain ⟨rfl, rfl, rfl⟩ := ihLater later
      exact ⟨rfl, rfl, rfl⟩
  | cutOutcome _ ih =>
    cases other with
    | cutOutcome later => exact ih later
  | nextOutcome _ _ ihFirst ihLater =>
    cases other with
    | nextOutcome first later =>
      obtain ⟨rfl, rfl, rfl⟩ := ihFirst first
      obtain ⟨rfl, rfl, rfl⟩ := ihLater later
      exact ⟨rfl, rfl, rfl⟩
  | lastRound =>
    cases other with
    | lastRound => exact ⟨rfl, rfl, rfl⟩
    | nextRound some => exact absurd rfl some
  | nextRound some _ _ ihFirst ihLater =>
    cases other with
    | lastRound => exact absurd rfl some
    | nextRound _ first later =>
      obtain ⟨rfl, rfl, rfl⟩ := ihFirst first
      obtain ⟨rfl, rfl, rfl⟩ := ihLater later
      exact ⟨rfl, rfl, rfl⟩

/-! ## Entries -/

/-- Rules are entered once each where they had no record, and all of them have one afterwards. -/
structure Enters (before : Set (Rule × Nat)) (inside : List (Rule × Nat))
    (after : Set (Rule × Nat)) : Prop where
  once : inside.Nodup
  new : ∀ key ∈ inside, key ∉ before
  after : after = before ∪ {key | key ∈ inside}

theorem enters_nothing (before : Set (Rule × Nat)) : Enters before [] before :=
  ⟨.nil, by simp, by simp⟩

theorem enters_append {before middle after : Set (Rule × Nat)} {inside more : List (Rule × Nat)}
    (first : Enters before inside middle) (later : Enters middle more after) :
    Enters before (inside ++ more) after := by
  obtain ⟨once, new, rfl⟩ := first
  obtain ⟨onceToo, newToo, rfl⟩ := later
  refine ⟨once.append onceToo ?_, ?_, ?_⟩
  · intro key early late
    exact newToo key late (.inr early)
  · intro key member known
    rcases List.mem_append.mp member with early | late
    · exact new key early known
    · exact newToo key late (.inl known)
  · ext key
    simp [or_assoc]

/-- A rule is entered, and others inside it. -/
theorem enters_cons {before after : Set (Rule × Nat)} {key : Rule × Nat}
    {inside : List (Rule × Nat)} (new : key ∉ before)
    (below : Enters (insert key before) inside after) :
    Enters before (key :: inside) (insert key after) := by
  obtain ⟨once, others, rfl⟩ := below
  refine ⟨List.nodup_cons.mpr ⟨fun member => others key member (.inl rfl), once⟩, ?_, ?_⟩
  · intro other member known
    rcases List.mem_cons.mp member with rfl | member
    · exact new known
    · exact others other member (.inr known)
  · ext other
    simp only [Set.mem_insert_iff, Set.mem_union, Set.mem_ofPred_eq, List.mem_cons]
    tauto

/-- No more rules are entered than there are left to be entered. -/
theorem length_le_unentered {before after : Set (Rule × Nat)} {inside : List (Rule × Nat)}
    (enters : Enters before inside after) (low : ∀ key ∈ inside, key.2 ≤ limit) :
    inside.length ≤ unentered limit before := by
  have covered : (↑inside.toFinset : Set (Rule × Nat)) ⊆
      {key | key.2 ≤ limit ∧ key ∉ before} := fun key member => by
    have among := List.mem_toFinset.mp (Finset.mem_coe.mp member)
    exact ⟨low key among, enters.new key among⟩
  calc inside.length = inside.toFinset.card := (List.toFinset_card_of_nodup enters.once).symm
    _ = (↑inside.toFinset : Set (Rule × Nat)).ncard := (Set.ncard_coe_finset _).symm
    _ ≤ unentered limit before := Set.ncard_le_ncard covered (finite_unentered ..)

theorem entries_expect (state : ParserState) (position : Nat) (kind : Kind) :
    (state.expect position kind).entries = state.entries := by
  rw [ParserState.entries, recorded_expect, ParserState.entries]

/-- A run enters each rule at most once at each position. -/
theorem enters_of_runs (run : Runs grammar kinds task state found after inside) :
    Enters state.entries inside after.entries := by
  induction run with
  | recalled | taken | lastItem | lastOption | noOutcome | lastRound => exact enters_nothing _
  | beyond | refused =>
    rw [entries_expect]
    exact enters_nothing _
  | entered new _ _ ih =>
    rw [entries_record] at ih ⊢
    exact enters_cons (not_mem_keys new) ih
  | reference _ ih | sequence _ ih | choice _ ih | optional _ ih | repeated _ ih
    | cutOutcome _ ih => exact ih
  | nextItem _ _ first later | nextOption _ _ first later | nextOutcome _ _ first later
    | nextRound _ _ _ first later => exact enters_append first later

/-! ## Ends -/

/-- Where a match that starts at a position may end: at once, or behind tokens of the text. -/
def Reach.Onward (size position : Nat) : Reach → Prop
  | .cut => True
  | .upTo stop => stop = position ∨ position < stop ∧ stop ≤ size

theorem Reach.Onward.trans {size position middle : Nat} {reach : Reach}
    (first : Reach.Onward size position (.upTo middle)) (second : Reach.Onward size middle reach) :
    Reach.Onward size position reach := by
  cases reach with
  | cut => trivial
  | upTo stop =>
    simp only [Reach.Onward] at first second ⊢
    omega

/-- All outcomes end onward. -/
abbrev Ranged (size position : Nat) (outcomes : Outcomes α) : Prop :=
  All (fun reach _ => Reach.Onward size position reach) outcomes

theorem Ranged.trans {size position middle : Nat} {outcomes : Outcomes α}
    (first : Reach.Onward size position (.upTo middle)) (second : Ranged size middle outcomes) :
    Ranged size position outcomes := fun reach value member =>
  first.trans (second reach value member)

/-- Every record holds outcomes that end onward. -/
def ParserState.InRange (size : Nat) (state : ParserState) : Prop :=
  ∀ (rule : Rule) (position : Nat) (found : Outcomes Derivation),
    state.recorded[(rule, position)]? = some found → Ranged size position found

/-- A task is at work onward of a position. -/
def Task.From (size position : Nat) : Task → Prop
  | .rule _ place => Reach.Onward size position (.upTo place)
  | .element _ place => Reach.Onward size position (.upTo place)
  | .inOrder _ current => Ranged size position current
  | .options _ place found => Reach.Onward size position (.upTo place) ∧ Ranged size position found
  | .each _ current found => Ranged size position current ∧ Ranged size position found
  | .rounds _ known frontier =>
    Ranged size position known ∧ Ranged size position (resumed frontier)

theorem onward_refl (size position : Nat) : Reach.Onward size position (.upTo position) := .inl rfl

theorem inRange_expect {size : Nat} (inRange : state.InRange size) (position : Nat) (kind : Kind) :
    (state.expect position kind).InRange size := by
  intro rule place found present
  rw [recorded_expect] at present
  exact inRange rule place found present

theorem inRange_record {size : Nat} (inRange : state.InRange size) {rule : Rule} {position : Nat}
    {found : Outcomes Derivation} (ranged : Ranged size position found) :
    (state.record rule position found).InRange size := by
  intro other place known present
  rw [getElem?_recorded_record] at present
  split at present
  · rename_i same
    cases same
    cases present
    exact ranged
  · exact inRange other place known present

theorem ranged_asParts {size position : Nat} {found : Outcomes Derivation}
    (ranged : Ranged size position found) : Ranged size position found.asParts :=
  all_map (fun _ _ here => here) ranged

theorem ranged_close {size position : Nat} (rule : Rule) (ranged : Ranged size position found) :
    Ranged size position (Outcomes.close rule found) :=
  all_map (fun _ _ here => here) ranged

/-- What a round goes on from is among the outcomes that it has found. -/
theorem ranged_fresh {size position : Nat} {known grown : Parts}
    (ranged : Ranged size position grown) : Ranged size position (resumed (fresh known grown)) := by
  intro reach children member
  obtain ⟨⟨place, kept⟩, inside, same⟩ := List.mem_map.mp member
  cases same
  obtain ⟨⟨end?, _⟩, among, continues⟩ := List.mem_filterMap.mp inside
  cases end? with
  | cut => cases continues
  | upTo stop =>
    cases continues
    exact ranged _ _ ((List.drop_sublist ..).subset among)

/-- A run finds outcomes that end onward, and neither records others nor enters a rule elsewhere. -/
theorem ranged_of_runs (run : Runs grammar kinds task state found after inside) {position : Nat}
    (start : task.From kinds.size position) (inRange : state.InRange kinds.size) :
    Ranged kinds.size position found ∧ after.InRange kinds.size ∧
      ∀ key ∈ inside, Reach.Onward kinds.size position (.upTo key.2) := by
  induction run generalizing position with
  | recalled known =>
    exact ⟨Ranged.trans start (ranged_asParts (inRange _ _ _ known)), inRange,
      List.forall_mem_nil _⟩
  | entered _ _ _ ih =>
    obtain ⟨body, below, deeper⟩ := ih (onward_refl ..) (inRange_record inRange all_nil)
    exact ⟨Ranged.trans start (ranged_asParts (ranged_close _ body)),
      inRange_record below (ranged_close _ body),
      List.forall_mem_cons.mpr ⟨start, fun key member => start.trans (deeper key member)⟩⟩
  | beyond => exact ⟨all_singleton trivial, inRange_expect inRange _ _, List.forall_mem_nil _⟩
  | @taken place _ _ here =>
    have inText : place < kinds.size := (Array.getElem?_eq_some_iff.mp here).1
    exact ⟨all_singleton (start.trans (.inr ⟨Nat.lt_succ_self _, inText⟩)), inRange,
      List.forall_mem_nil _⟩
  | refused => exact ⟨all_nil, inRange_expect inRange _ _, List.forall_mem_nil _⟩
  | reference _ ih => exact ih start inRange
  | sequence _ ih => exact ih (all_singleton start) inRange
  | choice _ ih => exact ih ⟨start, all_nil⟩ inRange
  | optional _ ih =>
    obtain ⟨ranged, kept⟩ := ih start inRange
    exact ⟨all_merge ranged (all_singleton start), kept⟩
  | repeated _ ih => exact ih ⟨all_singleton start, all_singleton start⟩ inRange
  | lastItem => exact ⟨start, inRange, List.forall_mem_nil _⟩
  | nextItem _ _ ihFirst ihLater =>
    obtain ⟨ranged, kept, early⟩ := ihFirst ⟨start, all_nil⟩ inRange
    obtain ⟨onward, still, late⟩ := ihLater ranged kept
    exact ⟨onward, still, List.forall_mem_append.mpr ⟨early, late⟩⟩
  | lastOption => exact ⟨start.2, inRange, List.forall_mem_nil _⟩
  | nextOption _ _ ihFirst ihLater =>
    obtain ⟨ranged, kept, early⟩ := ihFirst start.1 inRange
    obtain ⟨onward, still, late⟩ := ihLater ⟨start.1, all_merge start.2 ranged⟩ kept
    exact ⟨onward, still, List.forall_mem_append.mpr ⟨early, late⟩⟩
  | noOutcome => exact ⟨start.2, inRange, List.forall_mem_nil _⟩
  | cutOutcome _ ih =>
    have others := fun reach value member => start.1 reach value (List.mem_cons_of_mem _ member)
    exact ih ⟨others, all_merge start.2 (all_singleton trivial)⟩ inRange
  | nextOutcome _ _ ihFirst ihLater =>
    have others := fun reach value member => start.1 reach value (List.mem_cons_of_mem _ member)
    obtain ⟨ranged, kept, early⟩ := ihFirst (start.1 _ _ List.mem_cons_self) inRange
    obtain ⟨onward, still, late⟩ := ihLater ⟨others, all_merge start.2 (all_behind ranged)⟩ kept
    exact ⟨onward, still, List.forall_mem_append.mpr ⟨early, late⟩⟩
  | lastRound => exact ⟨start.1, inRange, List.forall_mem_nil _⟩
  | nextRound _ _ _ ihFirst ihLater =>
    obtain ⟨ranged, kept, early⟩ := ihFirst ⟨start.2, start.1⟩ inRange
    obtain ⟨onward, still, late⟩ := ihLater ⟨ranged, ranged_fresh ranged⟩ kept
    exact ⟨onward, still, List.forall_mem_append.mpr ⟨early, late⟩⟩

/-! ## Rounds -/

/-- A step behind each outcome adds to the outcomes known, and only ends that are new. -/
theorem exists_more_of_runs {item : Element} {current known : Parts}
    (run : Runs grammar kinds (.each item current known) state found after inside) :
    ∃ more, found = known ++ more ∧ ∀ outcome ∈ more, known.reaches outcome.1 = false := by
  induction current generalizing known state inside with
  | nil =>
    cases run
    exact ⟨[], (List.append_nil _).symm, by simp⟩
  | cons outcome rest ih =>
    cases run with
    | cutOutcome later | nextOutcome _ later => exact exists_more_of_merge (ih later)

theorem reaches_of_runs {item : Element} {current known : Parts}
    (run : Runs grammar kinds (.each item current known) state found after inside)
    (early : known.reaches reach) : found.reaches reach := by
  obtain ⟨more, rfl, -⟩ := exists_more_of_runs run
  obtain ⟨children, member⟩ := reaches_iff.mp early
  exact reaches_iff.mpr ⟨children, List.mem_append_left _ member⟩

/-- A repetition goes on from positions that it has just reached for the first time. -/
theorem fresh_of_runs {item : Element} {current known : Parts} {position : Nat}
    {children : List Derivation}
    (run : Runs grammar kinds (.each item current known) state found after inside)
    (member : (position, children) ∈ fresh known found) :
    known.reaches (.upTo position) = false ∧ found.reaches (.upTo position) := by
  obtain ⟨more, rfl, new⟩ := exists_more_of_runs run
  rw [fresh, List.drop_left] at member
  obtain ⟨⟨reach, kept⟩, among, continues⟩ := List.mem_filterMap.mp member
  cases reach with
  | cut => cases continues
  | upTo stop =>
    cases continues
    exact ⟨new _ among, reaches_iff.mpr ⟨_, List.mem_append_right _ among⟩⟩

/-- A loop with the positions that each of its rounds goes on from. It ends when there are none. -/
inductive Loops {Turn : Type} (round : Turn → Turn → Prop) (ahead : Turn → List Nat) :
    Turn → List (List Nat) → Turn → Prop where
  | last (none : ahead turn = []) : Loops round ahead turn [] turn
  | next (some : ahead turn ≠ []) (first : round turn middle)
      (later : Loops round ahead middle frontiers final) :
      Loops round ahead turn (ahead turn :: frontiers) final

/-- Where every round goes on only from positions that the one before has been the first to see, no
two rounds go on from the same position. -/
theorem disjoint_of_loops {Turn : Type} {round : Turn → Turn → Prop} {ahead : Turn → List Nat}
    {turn final : Turn} {frontiers : List (List Nat)} (sound : Turn → Prop)
    (seen : Turn → Set Nat) (loops : Loops round ahead turn frontiers final) (begun : sound turn)
    (sees : ∀ place ∈ ahead turn, place ∈ seen turn)
    (fresh : ∀ turn next, sound turn → round turn next → sound next ∧ seen turn ⊆ seen next ∧
      ∀ place ∈ ahead next, place ∈ seen next ∧ place ∉ seen turn) :
    frontiers.Pairwise List.Disjoint := by
  have apart : frontiers.Pairwise List.Disjoint ∧
      ∀ frontier ∈ frontiers, ∀ place ∈ frontier, place ∈ ahead turn ∨ place ∉ seen turn := by
    induction loops with
    | last => exact ⟨.nil, List.forall_mem_nil _⟩
    | next some first _ ih =>
      obtain ⟨still, grows, new⟩ := fresh _ _ begun first
      obtain ⟨pairwise, later⟩ := ih still fun place member => (new place member).1
      have unseen (frontier) (among) (place) (member : place ∈ frontier) :=
        (later frontier among place member).elim (fun inside => (new place inside).2)
          fun outside known => outside (grows known)
      refine ⟨List.pairwise_cons.mpr ⟨fun frontier among place here there => ?_, pairwise⟩,
        List.forall_mem_cons.mpr ⟨fun place => .inl, fun frontier among place member => ?_⟩⟩
      · exact unseen frontier among place there (sees place here)
      · exact .inr (unseen frontier among place member)
  exact apart.1

/-- A repetition between two rounds: what it has found, what it goes on from, and the state of the
parser. -/
structure Turn where
  known : Parts
  frontier : List (Nat × List Derivation)
  state : ParserState

/-- The positions that the next round goes on from. -/
def Turn.ahead (turn : Turn) : List Nat := turn.frontier.map (·.1)

/-- A round takes one turn to the next. -/
def Turn.Leads (grammar : Grammar) (kinds : Array Kind) (item : Element) (turn next : Turn) :
    Prop :=
  next.frontier = fresh turn.known next.known ∧ ∃ inside,
    Runs grammar kinds (.each item (resumed turn.frontier) turn.known) turn.state next.known
      next.state inside

theorem loops_of_runs {item : Element} {known : Parts} {frontier : List (Nat × List Derivation)}
    (run : Runs grammar kinds (.rounds item known frontier) state found after inside) :
    ∃ frontiers, Loops (Turn.Leads grammar kinds item) Turn.ahead ⟨known, frontier, state⟩ frontiers
      ⟨found, [], after⟩ := by
  generalize same : Task.rounds item known frontier = task at run
  induction run generalizing known frontier with
  | lastRound =>
    cases same
    exact ⟨[], .last rfl⟩
  | nextRound some first _ _ ih =>
    cases same
    obtain ⟨frontiers, later⟩ := ih rfl
    exact ⟨_, .next (by simpa [Turn.ahead] using some) ⟨rfl, _, first⟩ later⟩
  | _ => cases same

/-- The rounds of a repetition go on from different positions. -/
theorem repetition_loops {item : Element} {place : Nat}
    (run : Runs grammar kinds (.element (.repeated item) place) state found after inside) :
    ∃ frontiers, Loops (Turn.Leads grammar kinds item) Turn.ahead
        ⟨[(.upTo place, [])], [(place, [])], state⟩ frontiers ⟨found, [], after⟩ ∧
      frontiers.Pairwise List.Disjoint := by
  cases run with
  | repeated inner =>
    obtain ⟨frontiers, loops⟩ := loops_of_runs inner
    refine ⟨frontiers, loops, disjoint_of_loops (fun _ => True)
      (fun turn => {stop | turn.known.reaches (.upTo stop)}) loops trivial ?_ ?_⟩
    · intro stop member
      rw [List.mem_singleton.mp member]
      simp [reaches]
    · rintro turn next - ⟨same, inside, run⟩
      refine ⟨trivial, fun stop early => reaches_of_runs run early, fun stop member => ?_⟩
      rw [Turn.ahead, same] at member
      obtain ⟨⟨_, children⟩, among, rfl⟩ := List.mem_map.mp member
      obtain ⟨new, now⟩ := fresh_of_runs run among
      exact ⟨now, by simp [new]⟩

/-! ## The parser -/

/-- Where all records are in range and these rules are recorded, the action does not fail, and what
it does is a run of the task. -/
def Completes (grammar : Grammar) (kinds : Array Kind) (entered : Set (Rule × Nat)) (task : Task)
    (action : ParserM Parts) : Prop :=
  ∀ state, state.InRange kinds.size → entered ⊆ state.entries →
    ∃ found after inside, action state = .ok (found, after) ∧
      Runs grammar kinds task state found after inside

variable {entered : Set (Rule × Nat)} {action : ParserM Parts} {position : Nat}

/-- Behind such an action everything is in range again, and the rules are recorded still. -/
theorem Completes.run (completes : Completes grammar kinds entered task action)
    (start : task.From kinds.size position) (inRange : state.InRange kinds.size)
    (known : entered ⊆ state.entries) :
    ∃ found after inside, action state = .ok (found, after) ∧
      Runs grammar kinds task state found after inside ∧ Ranged kinds.size position found ∧
      after.InRange kinds.size ∧ entered ⊆ after.entries := by
  obtain ⟨found, after, inside, ran, run⟩ := completes state inRange known
  obtain ⟨ranged, kept, -⟩ := ranged_of_runs run start inRange
  refine ⟨found, after, inside, ran, run, ranged, kept, ?_⟩
  rw [(enters_of_runs run).after]
  exact known.trans Set.subset_union_left

variable {step : Nat → ParserM Parts} {item : Element}

/-- One step behind each of several outcomes, beside the outcomes found so far. -/
def behindEach (step : Nat → ParserM Parts) (current found : Parts) : ParserM Parts :=
  current.foldlM (fun following outcome =>
    match outcome.1 with
    | .cut => pure (following.merge [outcome])
    | .upTo position => do
      return following.merge (behind outcome.2 (← step position))) found

theorem completes_each (steps : ∀ place, Reach.Onward kinds.size position (.upTo place) →
      Completes grammar kinds entered (.element item place) (step place))
    (current : Parts) (ranged : Ranged kinds.size position current) (found : Parts) :
    Completes grammar kinds entered (.each item current found)
      (behindEach step current found) := by
  induction current generalizing found with
  | nil => exact fun state _ _ => ⟨found, state, [], rfl, .noOutcome⟩
  | cons outcome rest ih =>
    intro state inRange known
    have others := fun reach value member => ranged reach value (List.mem_cons_of_mem _ member)
    obtain ⟨reach, children⟩ := outcome
    cases reach with
    | cut =>
      obtain ⟨all, after, inside, ran, run⟩ := ih others (found.merge [(.cut, children)]) state
        inRange known
      exact ⟨all, after, inside, ran, .cutOutcome run⟩
    | upTo place =>
      have onward := ranged _ _ List.mem_cons_self
      obtain ⟨added, middle, inside, ran, run, -, kept, still⟩ :=
        (steps place onward).run (onward_refl ..) inRange known
      obtain ⟨all, after, more, onwards, later⟩ := ih others (found.merge (behind children added))
        middle kept still
      refine ⟨all, after, inside ++ more, ?_, .nextOutcome run later⟩
      rw [← onwards, behindEach, List.foldlM_cons]
      exact bind_of_ok (bind_of_ok ran)

theorem completes_inOrder {items : List Element}
    {descend : Rule → Nat → ParserM (Outcomes Derivation)}
    (steps : ∀ item ∈ items, ∀ place, Reach.Onward kinds.size position (.upTo place) →
      Completes grammar kinds entered (.element item place) (item.parts kinds descend place))
    (current : Parts) (ranged : Ranged kinds.size position current) :
    Completes grammar kinds entered (.inOrder items current)
      (Element.partsInOrder kinds descend items current) := by
  induction items generalizing current with
  | nil => exact fun state _ _ => ⟨current, state, [], rfl, .lastItem⟩
  | cons item rest ih =>
    intro state inRange known
    have first := completes_each (steps item List.mem_cons_self) current ranged []
    obtain ⟨following, middle, inside, ran, run, onward, kept, still⟩ :=
      first.run ⟨ranged, all_nil⟩ inRange known
    obtain ⟨found, after, more, onwards, later⟩ :=
      ih (fun other member => steps other (List.mem_cons_of_mem _ member)) following onward middle
        kept still
    refine ⟨found, after, inside ++ more, ?_, .nextItem run later⟩
    rw [← onwards, Element.partsInOrder]
    exact bind_of_ok ran

theorem completes_options {options : List Element}
    {descend : Rule → Nat → ParserM (Outcomes Derivation)}
    (steps : ∀ option ∈ options,
      Completes grammar kinds entered (.element option position)
        (option.parts kinds descend position)) (found : Parts) :
    Completes grammar kinds entered (.options options position found)
      (Element.partsOfAny kinds descend options position found) := by
  induction options generalizing found with
  | nil => exact fun state _ _ => ⟨found, state, [], rfl, .lastOption⟩
  | cons option rest ih =>
    intro state inRange known
    obtain ⟨added, middle, inside, ran, run, -, kept, still⟩ :=
      (steps option List.mem_cons_self).run (onward_refl ..) inRange known
    obtain ⟨all, after, more, onwards, later⟩ :=
      ih (fun other member => steps other (List.mem_cons_of_mem _ member)) (found.merge added)
        middle kept still
    refine ⟨all, after, inside ++ more, ?_, .nextOption run later⟩
    rw [← onwards, Element.partsOfAny]
    exact bind_of_ok ran

/-- A repetition comes to its end within its rounds: each round but the last reaches a position not
seen before. -/
theorem completes_rounds (steps : ∀ place, Reach.Onward kinds.size position (.upTo place) →
      Completes grammar kinds entered (.element item place) (step place))
    (rounds : Nat) (known : Parts) (frontier : List (Nat × List Derivation))
    (ranged : Ranged kinds.size position known)
    (onward : Ranged kinds.size position (resumed frontier))
    (enough : frontier ≠ [] →
      (missing position (max position kinds.size) known).card < rounds) :
    Completes grammar kinds entered (.rounds item known frontier)
      (iterate step rounds known frontier) := by
  induction rounds generalizing known frontier with
  | zero =>
    cases frontier with
    | nil => exact fun state _ _ => ⟨known, state, [], rfl, .lastRound⟩
    | cons => exact absurd (enough (List.cons_ne_nil _ _)) (Nat.not_lt_zero _)
  | succ rounds ih =>
    cases frontier with
    | nil => exact fun state _ _ => ⟨known, state, [], rfl, .lastRound⟩
    | cons outcome others =>
      intro state inRange recorded
      have first := completes_each steps (resumed (outcome :: others)) onward known
      obtain ⟨grown, middle, inside, ran, run, reached, kept, still⟩ :=
        first.run ⟨onward, ranged⟩ inRange recorded
      have fewer (some : fresh known grown ≠ []) :
          (missing position (max position kinds.size) grown).card < rounds := by
        obtain ⟨⟨place, children⟩, member⟩ := List.exists_mem_of_ne_nil _ some
        obtain ⟨new, now⟩ := fresh_of_runs run member
        have within : Reach.Onward kinds.size position (.upTo place) :=
          ranged_fresh reached _ _ (List.mem_map_of_mem member)
        have range : position ≤ place ∧ place ≤ max position kinds.size := by
          rcases within with same | later <;> omega
        have less := missing_lt (fun _ early => reaches_of_runs run early) range.1 range.2 now new
        have bound := enough (List.cons_ne_nil _ _)
        omega
      obtain ⟨found, after, rest, onwards, later⟩ :=
        ih grown (fresh known grown) reached (ranged_fresh reached) fewer middle kept still
      refine ⟨found, after, inside ++ rest, ?_, .nextRound (List.cons_ne_nil _ _) run later⟩
      rw [← onwards, iterate]
      rw [behindEach, resumed, List.foldlM_map] at ran
      exact bind_of_ok ran

/-- The same of a parser of rules, which has not yet made parts of what it derives. -/
def CompletesRule (grammar : Grammar) (kinds : Array Kind) (entered : Set (Rule × Nat))
    (rule : Rule) (position : Nat) (action : ParserM (Outcomes Derivation)) : Prop :=
  ∀ state, state.InRange kinds.size → entered ⊆ state.entries →
    ∃ found after inside, action state = .ok (found, after) ∧
      Runs grammar kinds (.rule rule position) state found.asParts after inside

/-- An element comes to its end where the rules that it refers to do. -/
theorem completes_element {descend : Rule → Nat → ParserM (Outcomes Derivation)}
    (element : Element)
    (calls : ∀ target ∈ element.references, ∀ place,
      Reach.Onward kinds.size position (.upTo place) →
      CompletesRule grammar kinds entered target place (descend target place))
    (place : Nat) (onward : Reach.Onward kinds.size position (.upTo place)) :
    Completes grammar kinds entered (.element element place)
      (element.parts kinds descend place) := by
  induction element using Element.induction generalizing place with
  | token kind =>
    intro state _ _
    rw [Element.parts]
    cases here : kinds[place]? with
    | none => exact ⟨_, _, _, rfl, .beyond here⟩
    | some other =>
      by_cases same : other = kind
      · subst same
        exact ⟨_, _, _, by simp only [if_true]; rfl, .taken here⟩
      · exact ⟨_, _, _, by simp only [if_neg same]; rfl, .refused here same⟩
  | reference target =>
    intro state inRange known
    obtain ⟨found, after, inside, ran, run⟩ :=
      calls target (List.mem_singleton_self target) place onward state inRange known
    exact ⟨_, after, inside, bind_of_ok ran, .reference run⟩
  | sequence items ih =>
    intro state inRange known
    have steps := fun item member place onward =>
      ih item member (fun target called => calls target (references_subset member called)) place
        onward
    obtain ⟨found, after, inside, ran, run⟩ :=
      completes_inOrder steps [(.upTo place, [])] (all_singleton onward) state inRange known
    exact ⟨found, after, inside, ran, .sequence run⟩
  | choice options ih =>
    intro state inRange known
    have steps := fun option member =>
      ih option member (fun target called => calls target (references_subset member called)) place
        onward
    obtain ⟨found, after, inside, ran, run⟩ := completes_options steps [] state inRange known
    exact ⟨found, after, inside, ran, .choice run⟩
  | optional item ih =>
    intro state inRange known
    obtain ⟨found, after, inside, ran, run⟩ := ih calls place onward state inRange known
    exact ⟨_, after, inside, bind_of_ok ran, .optional run⟩
  | repeated item ih =>
    intro state inRange known
    have steps (later : Nat) (behind : Reach.Onward kinds.size place (.upTo later)) :=
      ih calls later (onward.trans behind)
    have begun : All (fun reach _ => Reach.Onward kinds.size place reach)
        [(Reach.upTo place, ([] : List Derivation))] := all_singleton (onward_refl ..)
    obtain ⟨found, after, inside, ran, run⟩ :=
      completes_rounds steps (kinds.size + 2) [(.upTo place, [])] [(place, [])] begun begun
        (fun _ => missing_lt_rounds place kinds.size) state inRange known
    exact ⟨found, after, inside, ran, .repeated run⟩

/-- The parser comes to its end wherever more depth is left than rules and positions to enter, since
each rule that it goes into is one of them. -/
theorem completes_rule (closed : Closed grammar) (depth : Nat) (rule : Rule) (position : Nat)
    (defined : (grammar rule).isSome) (low : position ≤ limit) (whole : kinds.size ≤ limit)
    (entered : Set (Rule × Nat)) (deep : unentered limit entered < depth) :
    CompletesRule grammar kinds entered rule position
      (parseRule grammar kinds depth rule position) := by
  -- The rule itself is recorded while its right-hand side is parsed, so that less is left to enter
  -- there and one level less suffices.
  induction depth generalizing rule position entered with
  | zero => exact absurd deep (Nat.not_lt_zero _)
  | succ depth ih =>
    intro state inRange known
    rw [parseRule_apply]
    cases recorded : state.recorded[(rule, position)]? with
    | some found => exact ⟨found, state, [], rfl, .recalled recorded⟩
    | none =>
      obtain ⟨element, body⟩ := Option.isSome_iff_exists.mp defined
      have new : (rule, position) ∉ entered := fun member => not_mem_keys recorded (known member)
      have fewer := unentered_insert_lt low new
      have begun : insert (rule, position) entered ⊆ (state.record rule position []).entries := by
        rw [entries_record]
        exact Set.insert_subset_insert known
      have calls (target : Rule) (called : target ∈ element.references) (place : Nat)
          (onward : Reach.Onward kinds.size position (.upTo place)) :
          CompletesRule grammar kinds (insert (rule, position) entered) target place
            (parseRule grammar kinds depth target place) := by
        refine ih target place (closed rule target ⟨element, body, called⟩) ?_ _ (by omega)
        rcases onward with same | within <;> omega
      obtain ⟨found, after, inside, ran, run⟩ :=
        completes_element element calls position (onward_refl ..) _ (inRange_record inRange all_nil)
          begun
      refine ⟨_, _, _, ?_, .entered recorded body run⟩
      simp only [body, ran]
      rfl

end CypherAssist.Grammar
