import CypherAssist.Proofs.Grammar.Lockstep
import CypherAssist.Proofs.Grammar.Run

/-! The walk for candidates told without any bound, as the work of the parser is. A tour is finite,
and it lists the rules that it enters with their positions. A preferred rule at the caret is
reported and not listed; any other is listed once, where it has no record. No position lies behind
the caret, so a repetition runs out of positions that it has not reached yet. -/
namespace CypherAssist.Grammar
open Token

/-- What a walk is at work on, with the rules around it and the elements that follow: a rule, an
element, items in order from the positions so far, options beside the positions so far, an item from
each of several positions, and the rounds of a repetition. -/
inductive Stage where
  | rule (rule : Rule) (position : Nat) (stack : List Frame)
  | element (element : Element) (position : Nat) (stack : List Frame) (follow : List Element)
  | inOrder (items : List Element) (positions : List Nat) (stack : List Frame)
    (follow : List Element)
  | options (options : List Element) (position : Nat) (stack : List Frame) (follow : List Element)
    (reached : List Nat)
  | each (item : Element) (positions : List Nat) (stack : List Frame) (follow : List Element)
    (reached : List Nat)
  | rounds (item : Element) (reached frontier : List Nat) (stack : List Frame)
    (follow : List Element)

/-- The positions found that had not been reached before. -/
def unreached (reached found : List Nat) : List Nat :=
  found.filter fun position => !reached.contains position

/-- A preferred rule at the caret is reported as a whole. -/
def Caret.Reports (caret : Caret) (rule : Rule) (position : Nat) : Prop :=
  position = caret.position ∧ caret.prefers rule

/-- A tour of the grammar from one state of a walk to another, with the positions that it reaches
and the rules that it enters. -/
inductive Tours (grammar : Grammar) (caret : Caret) :
    Stage → WalkState → List Nat → WalkState → List (Rule × Nat) → Prop where
  | reported (reports : caret.Reports rule position) :
      Tours grammar caret (.rule rule position stack) state []
        { state with candidates := state.candidates.addRule (caret.ruleAt rule position stack) } []
  | recalled (enters : ¬ caret.Reports rule position)
      (known : state.recorded[(rule, position)]? = some ends) :
      Tours grammar caret (.rule rule position stack) state ends state []
  | entered (enters : ¬ caret.Reports rule position)
      (new : state.recorded[(rule, position)]? = none)
      (defined : grammar rule = some element)
      (body : Tours grammar caret (.element element position (⟨rule, position⟩ :: stack) [])
        (state.record rule position []) ends after inside) :
      Tours grammar caret (.rule rule position stack) state ends (after.record rule position ends)
        ((rule, position) :: inside)
  | asked {kind : Kind} (here : position = caret.position) :
      Tours grammar caret (.element (.token kind) position stack follow) state []
        (state.report caret kind stack follow) []
  | taken {kind : Kind} (before : position ≠ caret.position)
      (fits : caret.tokens[position]?.map (·.kind) = some kind) :
      Tours grammar caret (.element (.token kind) position stack follow) state [position + 1] state
        []
  | refused {kind : Kind} (before : position ≠ caret.position)
      (differs : caret.tokens[position]?.map (·.kind) ≠ some kind) :
      Tours grammar caret (.element (.token kind) position stack follow) state [] state []
  | reference
      (called : Tours grammar caret (.rule target position stack) state ends after inside) :
      Tours grammar caret (.element (.reference target) position stack follow) state ends after
        inside
  | sequence (inner : Tours grammar caret (.inOrder items [position] stack follow) state ends after
        inside) :
      Tours grammar caret (.element (.sequence items) position stack follow) state ends after inside
  | choice (inner : Tours grammar caret (.options options position stack follow []) state ends after
        inside) :
      Tours grammar caret (.element (.choice options) position stack follow) state ends after inside
  | optional (inner : Tours grammar caret (.element item position stack follow) state ends after
        inside) :
      Tours grammar caret (.element (.optional item) position stack follow) state
        (union [position] ends) after inside
  | repeated (inner : Tours grammar caret (.rounds item [position] [position] stack
        (.repeated item :: follow)) state ends after inside) :
      Tours grammar caret (.element (.repeated item) position stack follow) state ends after inside
  | lastItem : Tours grammar caret (.inOrder [] positions stack follow) state positions state []
  | nextItem (first : Tours grammar caret (.each item positions stack (rest ++ follow) []) state
        reached middle inside)
      (later : Tours grammar caret (.inOrder rest reached stack follow) middle ends after more) :
      Tours grammar caret (.inOrder (item :: rest) positions stack follow) state ends after
        (inside ++ more)
  | lastOption : Tours grammar caret (.options [] position stack follow reached) state reached state
        []
  | nextOption (first : Tours grammar caret (.element option position stack follow) state added
        middle inside)
      (later : Tours grammar caret (.options rest position stack follow (union reached added))
        middle ends after more) :
      Tours grammar caret (.options (option :: rest) position stack follow reached) state ends after
        (inside ++ more)
  | noPosition : Tours grammar caret (.each item [] stack follow reached) state reached state []
  | nextPosition (first : Tours grammar caret (.element item position stack follow) state added
        middle inside)
      (later : Tours grammar caret (.each item rest stack follow (union reached added)) middle ends
        after more) :
      Tours grammar caret (.each item (position :: rest) stack follow reached) state ends after
        (inside ++ more)
  | lastRound : Tours grammar caret (.rounds item reached [] stack follow) state reached state []
  | nextRound {frontier : List Nat} (some : frontier ≠ [])
      (first : Tours grammar caret (.each item frontier stack follow []) state found middle inside)
      (later : Tours grammar caret (.rounds item (union reached (unreached reached found))
        (unreached reached found) stack follow) middle ends after more) :
      Tours grammar caret (.rounds item reached frontier stack follow) state ends after
        (inside ++ more)

variable {grammar : Grammar} {caret : Caret} {stage : Stage} {state after : WalkState}
  {ends : List Nat} {inside : List (Rule × Nat)}

/-- A stage has one tour. -/
theorem tours_unique (tour : Tours grammar caret stage state ends after inside)
    (other : Tours grammar caret stage state also later trace) :
    ends = also ∧ after = later ∧ inside = trace := by
  induction tour generalizing also later trace with
  | reported reports =>
    cases other with
    | reported => exact ⟨rfl, rfl, rfl⟩
    | recalled enters | entered enters => exact absurd reports enters
  | recalled enters known =>
    cases other with
    | reported reports => exact absurd reports enters
    | recalled _ same =>
      cases known.symm.trans same
      exact ⟨rfl, rfl, rfl⟩
    | entered _ new => cases known.symm.trans new
  | entered enters new defined _ ih =>
    cases other with
    | reported reports => exact absurd reports enters
    | recalled _ known => cases known.symm.trans new
    | entered _ _ same body =>
      cases defined.symm.trans same
      obtain ⟨rfl, rfl, rfl⟩ := ih body
      exact ⟨rfl, rfl, rfl⟩
  | asked here =>
    cases other with
    | asked => exact ⟨rfl, rfl, rfl⟩
    | taken before | refused before => exact absurd here before
  | taken before fits =>
    cases other with
    | asked here => exact absurd here before
    | taken => exact ⟨rfl, rfl, rfl⟩
    | refused _ differs => exact absurd fits differs
  | refused before differs =>
    cases other with
    | asked here => exact absurd here before
    | taken _ fits => exact absurd fits differs
    | refused => exact ⟨rfl, rfl, rfl⟩
  | reference _ ih =>
    cases other with
    | reference called => exact ih called
  | sequence _ ih =>
    cases other with
    | sequence inner => exact ih inner
  | choice _ ih =>
    cases other with
    | choice inner => exact ih inner
  | optional _ ih =>
    cases other with
    | optional inner =>
      obtain ⟨rfl, rfl, rfl⟩ := ih inner
      exact ⟨rfl, rfl, rfl⟩
  | repeated _ ih =>
    cases other with
    | repeated inner => exact ih inner
  | lastItem | lastOption | noPosition =>
    cases other
    exact ⟨rfl, rfl, rfl⟩
  | nextItem _ _ ihFirst ihLater =>
    cases other with
    | nextItem first later =>
      obtain ⟨rfl, rfl, rfl⟩ := ihFirst first
      obtain ⟨rfl, rfl, rfl⟩ := ihLater later
      exact ⟨rfl, rfl, rfl⟩
  | nextOption _ _ ihFirst ihLater =>
    cases other with
    | nextOption first later =>
      obtain ⟨rfl, rfl, rfl⟩ := ihFirst first
      obtain ⟨rfl, rfl, rfl⟩ := ihLater later
      exact ⟨rfl, rfl, rfl⟩
  | nextPosition _ _ ihFirst ihLater =>
    cases other with
    | nextPosition first later =>
      obtain ⟨rfl, rfl, rfl⟩ := ihFirst first
      obtain ⟨rfl, rfl, rfl⟩ := ihLater later
      exact ⟨rfl, rfl, rfl⟩
  | lastRound =>
    cases other with
    | lastRound => exact ⟨rfl, rfl, rfl⟩
    | nextRound some => exact absurd rfl some
  | nextRound some _ _ ihFirst ihLater =>
    cases other with
    | lastRound => exact absurd rfl some
    | nextRound _ first later =>
      obtain ⟨rfl, rfl, rfl⟩ := ihFirst first
      obtain ⟨rfl, rfl, rfl⟩ := ihLater later
      exact ⟨rfl, rfl, rfl⟩

/-! ## Entries -/

/-- The rules and positions that a walk has a record for. -/
def WalkState.entries (state : WalkState) : Set (Rule × Nat) :=
  {key | key ∈ state.recorded}

theorem WalkState.entries_record (state : WalkState) (rule : Rule) (position : Nat)
    (ends : List Nat) :
    (state.record rule position ends).entries = insert (rule, position) state.entries :=
  keys_insert ..

/-- A tour enters each rule at most once at each position. -/
theorem enters_of_tours (tour : Tours grammar caret stage state ends after inside) :
    Enters state.entries inside after.entries := by
  induction tour with
  | reported | recalled | taken | refused | lastItem | lastOption | noPosition | lastRound =>
    exact enters_nothing _
  | entered _ new _ _ ih =>
    rw [WalkState.entries_record] at ih ⊢
    exact enters_cons (not_mem_keys new) ih
  | asked =>
    rw [WalkState.entries, WalkState.entries, WalkState.recorded_report]
    exact enters_nothing _
  | reference _ ih | sequence _ ih | choice _ ih | optional _ ih | repeated _ ih => exact ih
  | nextItem _ _ ihFirst ihLater | nextOption _ _ ihFirst ihLater
  | nextPosition _ _ ihFirst ihLater | nextRound _ _ _ ihFirst ihLater =>
    exact enters_append ihFirst ihLater

/-- A rule that is reported as a whole is not entered. -/
theorem not_reports_of_tours (tour : Tours grammar caret stage state ends after inside) :
    ∀ key ∈ inside, ¬ caret.Reports key.1 key.2 := by
  induction tour with
  | reported | recalled | asked | taken | refused | lastItem | lastOption | noPosition
  | lastRound => exact List.forall_mem_nil _
  | entered enters _ _ _ ih => exact List.forall_mem_cons.mpr ⟨enters, ih⟩
  | reference _ ih | sequence _ ih | choice _ ih | optional _ ih | repeated _ ih => exact ih
  | nextItem _ _ ihFirst ihLater | nextOption _ _ ihFirst ihLater
  | nextPosition _ _ ihFirst ihLater | nextRound _ _ _ ihFirst ihLater =>
    exact List.forall_mem_append.mpr ⟨ihFirst, ihLater⟩

/-! ## Range -/

/-- Every record holds ascending positions that are not behind the caret. -/
def WalkState.InRange (caret : Caret) (state : WalkState) : Prop :=
  ∀ (rule : Rule) (position : Nat) (ends : List Nat),
    state.recorded[(rule, position)]? = some ends → Within caret ends

/-- A stage is at work on positions that are not behind the caret. -/
def Stage.Within (caret : Caret) : Stage → Prop
  | .rule _ position _ => position ≤ caret.position
  | .element _ position _ _ => position ≤ caret.position
  | .inOrder _ positions _ _ => Grammar.Within caret positions
  | .options _ position _ _ reached => position ≤ caret.position ∧ Grammar.Within caret reached
  | .each _ positions _ _ reached => Grammar.Within caret positions ∧ Grammar.Within caret reached
  | .rounds _ reached frontier _ _ => Grammar.Within caret reached ∧ Grammar.Within caret frontier

theorem within_tail {rest : List Nat} (within : Within caret (position :: rest)) :
    Within caret rest :=
  ⟨within.ascending.of_cons, fun place member => within.le place (List.mem_cons_of_mem _ member)⟩

theorem within_unreached {reached found : List Nat} (within : Within caret found) :
    Within caret (unreached reached found) :=
  within_filter within _

theorem WalkState.inRange_record (inRange : state.InRange caret) {rule : Rule} {position : Nat}
    (within : Within caret ends) : (state.record rule position ends).InRange caret := by
  intro other place known present
  rw [WalkState.getElem?_record] at present
  split at present
  · cases present
    exact within
  · exact inRange other place known present

/-- A tour reaches positions that are not behind the caret, and neither records others nor enters a
rule there. -/
theorem within_of_tours (tour : Tours grammar caret stage state ends after inside)
    (start : stage.Within caret) (inRange : state.InRange caret) :
    Within caret ends ∧ after.InRange caret ∧ ∀ key ∈ inside, key.2 ≤ caret.position := by
  induction tour with
  | reported => exact ⟨within_nil, inRange, List.forall_mem_nil _⟩
  | recalled _ known => exact ⟨inRange _ _ _ known, inRange, List.forall_mem_nil _⟩
  | entered _ _ _ _ ih =>
    obtain ⟨body, below, deeper⟩ := ih start (WalkState.inRange_record inRange within_nil)
    exact ⟨body, WalkState.inRange_record below body, List.forall_mem_cons.mpr ⟨start, deeper⟩⟩
  | asked =>
    refine ⟨within_nil, fun rule place known present => ?_, List.forall_mem_nil _⟩
    rw [WalkState.recorded_report] at present
    exact inRange rule place known present
  | taken before =>
    have earlier := Nat.lt_of_le_of_ne start before
    exact ⟨within_singleton earlier, inRange, List.forall_mem_nil _⟩
  | refused => exact ⟨within_nil, inRange, List.forall_mem_nil _⟩
  | reference _ ih => exact ih start inRange
  | sequence _ ih => exact ih (within_singleton start) inRange
  | choice _ ih => exact ih ⟨start, within_nil⟩ inRange
  | optional _ ih =>
    obtain ⟨within, kept⟩ := ih start inRange
    exact ⟨within_union (within_singleton start) within, kept⟩
  | repeated _ ih => exact ih ⟨within_singleton start, within_singleton start⟩ inRange
  | lastItem => exact ⟨start, inRange, List.forall_mem_nil _⟩
  | nextItem _ _ ihFirst ihLater =>
    obtain ⟨within, kept, early⟩ := ihFirst ⟨start, within_nil⟩ inRange
    obtain ⟨onward, still, late⟩ := ihLater within kept
    exact ⟨onward, still, List.forall_mem_append.mpr ⟨early, late⟩⟩
  | lastOption => exact ⟨start.2, inRange, List.forall_mem_nil _⟩
  | nextOption _ _ ihFirst ihLater =>
    obtain ⟨within, kept, early⟩ := ihFirst start.1 inRange
    obtain ⟨onward, still, late⟩ := ihLater ⟨start.1, within_union start.2 within⟩ kept
    exact ⟨onward, still, List.forall_mem_append.mpr ⟨early, late⟩⟩
  | noPosition => exact ⟨start.2, inRange, List.forall_mem_nil _⟩
  | nextPosition _ _ ihFirst ihLater =>
    obtain ⟨within, kept, early⟩ := ihFirst (start.1.le _ List.mem_cons_self) inRange
    obtain ⟨onward, still, late⟩ :=
      ihLater ⟨within_tail start.1, within_union start.2 within⟩ kept
    exact ⟨onward, still, List.forall_mem_append.mpr ⟨early, late⟩⟩
  | lastRound => exact ⟨start.1, inRange, List.forall_mem_nil _⟩
  | nextRound _ _ _ ihFirst ihLater =>
    obtain ⟨within, kept, early⟩ := ihFirst ⟨start.2, within_nil⟩ inRange
    obtain ⟨onward, still, late⟩ :=
      ihLater ⟨within_union start.1 (within_unreached within), within_unreached within⟩ kept
    exact ⟨onward, still, List.forall_mem_append.mpr ⟨early, late⟩⟩

/-! ## Rounds -/

/-- What a repetition adds is reached from then on, and had not been reached before. -/
theorem mem_unreached {reached found : List Nat} (within : Within caret found)
    (member : position ∈ unreached reached found) :
    position ∈ union reached (unreached reached found) ∧ position ∉ reached :=
  ⟨(mem_union (within_unreached within).ascending).mpr (.inr member), by
    simpa using (List.mem_filter.mp member).2⟩

theorem mem_reached {reached found : List Nat} (within : Within caret found)
    (early : position ∈ reached) : position ∈ union reached (unreached reached found) :=
  (mem_union (within_unreached within).ascending).mpr (.inl early)

/-- A repetition between two rounds: what it has reached, what it goes on from, and the state of the
walk. -/
structure Lap where
  reached : List Nat
  frontier : List Nat
  state : WalkState

/-- A round takes one lap to the next. -/
def Lap.Leads (grammar : Grammar) (caret : Caret) (item : Element) (stack : List Frame)
    (follow : List Element) (lap next : Lap) : Prop :=
  ∃ found inside, next.frontier = unreached lap.reached found ∧
    next.reached = union lap.reached (unreached lap.reached found) ∧
    Tours grammar caret (.each item lap.frontier stack follow []) lap.state found next.state inside

/-- Nothing reached or recorded lies behind the caret. -/
structure Lap.InRange (caret : Caret) (lap : Lap) : Prop where
  reached : Within caret lap.reached
  frontier : Within caret lap.frontier
  state : lap.state.InRange caret

variable {item : Element} {stack : List Frame} {follow : List Element}

theorem loops_of_tours {reached frontier : List Nat}
    (tour : Tours grammar caret (.rounds item reached frontier stack follow) state ends after
      inside) :
    ∃ frontiers, Loops (Lap.Leads grammar caret item stack follow) Lap.frontier
      ⟨reached, frontier, state⟩ frontiers ⟨ends, [], after⟩ := by
  generalize same : Stage.rounds item reached frontier stack follow = stage at tour
  induction tour generalizing reached frontier with
  | lastRound =>
    cases same
    exact ⟨[], .last rfl⟩
  | nextRound some first _ _ ih =>
    cases same
    obtain ⟨frontiers, later⟩ := ih rfl
    exact ⟨_, .next some ⟨_, _, rfl, rfl, first⟩ later⟩
  | _ => cases same

/-- The rounds of a repetition go on from different positions. -/
theorem repetition_laps (low : position ≤ caret.position) (inRange : state.InRange caret)
    (tour : Tours grammar caret (.element (.repeated item) position stack follow) state ends after
      inside) :
    ∃ frontiers, Loops (Lap.Leads grammar caret item stack (.repeated item :: follow)) Lap.frontier
        ⟨[position], [position], state⟩ frontiers ⟨ends, [], after⟩ ∧
      frontiers.Pairwise List.Disjoint := by
  cases tour with
  | repeated inner =>
    obtain ⟨frontiers, loops⟩ := loops_of_tours inner
    have begun := within_singleton low
    refine ⟨frontiers, loops, disjoint_of_loops (Lap.InRange caret)
      (fun lap => {place | place ∈ lap.reached}) loops ⟨begun, begun, inRange⟩
      (fun _ member => member) ?_⟩
    rintro lap ⟨_, _, next⟩ sound ⟨found, inside, rfl, rfl, round⟩
    obtain ⟨within, kept, -⟩ := within_of_tours round ⟨sound.frontier, within_nil⟩ sound.state
    have fresh : Within caret (unreached lap.reached found) := within_unreached within
    exact ⟨⟨within_union sound.reached fresh, fresh, kept⟩, fun place => mem_reached within,
      fun place => mem_unreached within⟩

/-! ## The walk -/

/-- Where all records are in range and these rules are recorded, the action does not fail, and what
it does is a tour of the stage. -/
def Finishes (grammar : Grammar) (caret : Caret) (entered : Set (Rule × Nat)) (stage : Stage)
    (action : WalkM (List Nat)) : Prop :=
  ∀ state, state.InRange caret → entered ⊆ state.entries →
    ∃ ends after inside, action state = .ok (ends, after) ∧
      Tours grammar caret stage state ends after inside

variable {entered : Set (Rule × Nat)} {action : WalkM (List Nat)} {position : Nat}

/-- Behind such an action everything is in range again, and the rules are recorded still. -/
theorem Finishes.tour (finishes : Finishes grammar caret entered stage action)
    (start : stage.Within caret) (inRange : state.InRange caret)
    (known : entered ⊆ state.entries) :
    ∃ ends after inside, action state = .ok (ends, after) ∧
      Tours grammar caret stage state ends after inside ∧ Within caret ends ∧
      after.InRange caret ∧ entered ⊆ after.entries := by
  obtain ⟨ends, after, inside, ran, tour⟩ := finishes state inRange known
  obtain ⟨within, kept, -⟩ := within_of_tours tour start inRange
  refine ⟨ends, after, inside, ran, tour, within, kept, ?_⟩
  rw [(enters_of_tours tour).after]
  exact known.trans Set.subset_union_left

variable {step : Nat → WalkM (List Nat)} {descend : Rule → Nat → List Frame → WalkM (List Nat)}

theorem finishes_each (steps : ∀ place ≤ caret.position,
      Finishes grammar caret entered (.element item place stack follow) (step place))
    (positions : List Nat) (within : Within caret positions) (reached : List Nat) :
    Finishes grammar caret entered (.each item positions stack follow reached)
      (positions.foldlM (fun reached start => do return union reached (← step start)) reached) := by
  induction positions generalizing reached with
  | nil => exact fun state _ _ => ⟨reached, state, [], rfl, .noPosition⟩
  | cons place rest ih =>
    intro state inRange known
    have low := within.le place List.mem_cons_self
    obtain ⟨added, middle, inside, ran, tour, -, kept, still⟩ :=
      (steps place low).tour low inRange known
    obtain ⟨ends, after, more, onwards, later⟩ :=
      ih (within_tail within) (union reached added) middle kept still
    refine ⟨ends, after, inside ++ more, ?_, .nextPosition tour later⟩
    rw [← onwards, List.foldlM_cons]
    exact bind_of_ok (bind_of_ok ran)

theorem finishes_inOrder {items : List Element}
    (steps : ∀ item ∈ items, ∀ place ≤ caret.position, ∀ behind,
      Finishes grammar caret entered (.element item place stack behind)
        (item.walk caret descend place stack behind))
    (positions : List Nat) (within : Within caret positions) :
    Finishes grammar caret entered (.inOrder items positions stack follow)
      (Element.walkInOrder caret descend items positions stack follow) := by
  induction items generalizing positions with
  | nil => exact fun state _ _ => ⟨positions, state, [], rfl, .lastItem⟩
  | cons item rest ih =>
    intro state inRange known
    have first := finishes_each
      (fun place low => steps item List.mem_cons_self place low (rest ++ follow)) positions within
      []
    obtain ⟨reached, middle, inside, ran, tour, onward, kept, still⟩ :=
      first.tour ⟨within, within_nil⟩ inRange known
    obtain ⟨ends, after, more, onwards, later⟩ :=
      ih (fun other member => steps other (List.mem_cons_of_mem _ member)) reached onward middle
        kept still
    refine ⟨ends, after, inside ++ more, ?_, .nextItem tour later⟩
    rw [← onwards, Element.walkInOrder]
    exact bind_of_ok ran

theorem finishes_options {options : List Element} (low : position ≤ caret.position)
    (steps : ∀ option ∈ options,
      Finishes grammar caret entered (.element option position stack follow)
        (option.walk caret descend position stack follow)) (reached : List Nat) :
    Finishes grammar caret entered (.options options position stack follow reached)
      (Element.walkAny caret descend options position stack follow reached) := by
  induction options generalizing reached with
  | nil => exact fun state _ _ => ⟨reached, state, [], rfl, .lastOption⟩
  | cons option rest ih =>
    intro state inRange known
    obtain ⟨added, middle, inside, ran, tour, -, kept, still⟩ :=
      (steps option List.mem_cons_self).tour low inRange known
    obtain ⟨ends, after, more, onwards, later⟩ :=
      ih (fun other member => steps other (List.mem_cons_of_mem _ member)) (union reached added)
        middle kept still
    refine ⟨ends, after, inside ++ more, ?_, .nextOption tour later⟩
    rw [← onwards, Element.walkAny]
    exact bind_of_ok ran

/-- A repetition comes to its end within its rounds: each round but the last reaches a position not
reached before. -/
theorem finishes_reachAll (steps : ∀ place ≤ caret.position,
      Finishes grammar caret entered (.element item place stack follow) (step place))
    (rounds : Nat) (reached frontier : List Nat) (within : Within caret reached)
    (onward : Within caret frontier)
    (enough : frontier ≠ [] → (unseen 0 caret.position reached.contains).card < rounds) :
    Finishes grammar caret entered (.rounds item reached frontier stack follow)
      (reachAll step rounds reached frontier) := by
  induction rounds generalizing reached frontier with
  | zero =>
    cases frontier with
    | nil => exact fun state _ _ => ⟨reached, state, [], rfl, .lastRound⟩
    | cons => exact absurd (enough (List.cons_ne_nil _ _)) (Nat.not_lt_zero _)
  | succ rounds ih =>
    cases frontier with
    | nil => exact fun state _ _ => ⟨reached, state, [], rfl, .lastRound⟩
    | cons place others =>
      intro state inRange known
      have first := finishes_each steps (place :: others) onward []
      obtain ⟨found, middle, inside, ran, tour, places, kept, still⟩ :=
        first.tour ⟨onward, within_nil⟩ inRange known
      have fresh : Within caret (unreached reached found) := within_unreached places
      have fewer (some : unreached reached found ≠ []) :
          (unseen 0 caret.position (union reached (unreached reached found)).contains).card <
            rounds := by
        obtain ⟨next, member⟩ := List.exists_mem_of_ne_nil _ some
        have less := unseen_lt_of_fresh places member
        have bound := enough (List.cons_ne_nil _ _)
        exact less.trans_le (Nat.le_of_lt_succ bound)
      obtain ⟨ends, after, more, onwards, later⟩ :=
        ih (union reached (unreached reached found)) (unreached reached found)
          (within_union within fresh) fresh fewer middle kept still
      refine ⟨ends, after, inside ++ more, ?_, .nextRound (List.cons_ne_nil _ _) tour later⟩
      rw [← onwards, reachAll]
      exact bind_of_ok ran

/-- An element comes to its end where the rules that it refers to do. -/
theorem finishes_element (element : Element)
    (calls : ∀ target ∈ element.references, ∀ place ≤ caret.position,
      Finishes grammar caret entered (.rule target place stack) (descend target place stack))
    (place : Nat) (low : place ≤ caret.position) (follow : List Element) :
    Finishes grammar caret entered (.element element place stack follow)
      (element.walk caret descend place stack follow) := by
  induction element using Element.induction generalizing place follow with
  | token kind =>
    intro state _ _
    rw [Element.walk]
    by_cases here : place = caret.position
    · exact ⟨_, _, _, by rw [if_pos here]; rfl, .asked here⟩
    · rw [if_neg here]
      by_cases fits : caret.tokens[place]?.map (·.kind) = some kind
      · exact ⟨_, _, _, by rw [if_pos fits]; rfl, .taken here fits⟩
      · exact ⟨_, _, _, by rw [if_neg fits]; rfl, .refused here fits⟩
  | reference target =>
    intro state inRange known
    obtain ⟨ends, after, inside, ran, tour⟩ :=
      calls target (List.mem_singleton_self target) place low state inRange known
    exact ⟨ends, after, inside, ran, .reference tour⟩
  | sequence items ih =>
    intro state inRange known
    have steps := fun item member =>
      ih item member fun target called => calls target (references_subset member called)
    obtain ⟨ends, after, inside, ran, tour⟩ :=
      finishes_inOrder steps [place] (within_singleton low) state inRange known
    exact ⟨ends, after, inside, ran, .sequence tour⟩
  | choice options ih =>
    intro state inRange known
    have steps := fun option member =>
      ih option member (fun target called => calls target (references_subset member called)) place
        low follow
    obtain ⟨ends, after, inside, ran, tour⟩ := finishes_options low steps [] state inRange known
    exact ⟨ends, after, inside, ran, .choice tour⟩
  | optional item ih =>
    intro state inRange known
    obtain ⟨ends, after, inside, ran, tour⟩ := ih calls place low follow state inRange known
    exact ⟨_, after, inside, bind_of_ok ran, .optional tour⟩
  | repeated item ih =>
    intro state inRange known
    have steps := fun later behind => ih calls later behind (.repeated item :: follow)
    have few : (unseen 0 caret.position [place].contains).card < caret.tokens.size + 1 := by
      have all := unseen_card_le 0 caret.position fun _ => false
      have less : (unseen 0 caret.position [place].contains).card <
          (unseen 0 caret.position fun _ => false).card :=
        unseen_lt (fun _ none => absurd none Bool.false_ne_true) (Nat.zero_le _) low (by simp) rfl
      rw [Caret.position] at all less ⊢
      omega
    obtain ⟨ends, after, inside, ran, tour⟩ :=
      finishes_reachAll steps (caret.tokens.size + 1) [place] [place] (within_singleton low)
        (within_singleton low) (fun _ => few) state inRange known
    exact ⟨ends, after, inside, ran, .repeated tour⟩

/-- The walk comes to its end wherever more depth is left than rules and positions to enter. -/
theorem finishes_rule (closed : Closed grammar) (depth : Nat) (rule : Rule) (position : Nat)
    (stack : List Frame) (defined : (grammar rule).isSome) (low : position ≤ caret.position)
    (entered : Set (Rule × Nat)) (deep : unentered caret.position entered < depth) :
    Finishes grammar caret entered (.rule rule position stack)
      (walkRule grammar caret depth rule position stack) := by
  induction depth generalizing rule position stack entered with
  | zero => exact absurd deep (Nat.not_lt_zero _)
  | succ depth ih =>
    intro state inRange known
    rw [walkRule_apply]
    by_cases reports : caret.Reports rule position
    · exact ⟨_, _, _, by rw [if_pos (by simpa [Caret.Reports] using reports)], .reported reports⟩
    · rw [if_neg (by simpa [Caret.Reports] using reports)]
      cases recorded : state.recorded[(rule, position)]? with
      | some ends => exact ⟨ends, state, [], rfl, .recalled reports recorded⟩
      | none =>
        obtain ⟨element, body⟩ := Option.isSome_iff_exists.mp defined
        have new : (rule, position) ∉ entered := fun member =>
          not_mem_keys recorded (known member)
        have fewer := unentered_insert_lt low new
        have begun : insert (rule, position) entered ⊆
            (state.record rule position []).entries := by
          rw [WalkState.entries_record]
          exact Set.insert_subset_insert known
        have calls (target : Rule) (called : target ∈ element.references) (place : Nat)
            (within : place ≤ caret.position) :
            Finishes grammar caret (insert (rule, position) entered)
              (.rule target place (⟨rule, position⟩ :: stack))
              (walkRule grammar caret depth target place (⟨rule, position⟩ :: stack)) :=
          ih target place _ (closed rule target ⟨element, body, called⟩) within _ (by omega)
        obtain ⟨ends, after, inside, ran, tour⟩ :=
          finishes_element element calls position low [] _
            (WalkState.inRange_record inRange within_nil) begun
        refine ⟨_, _, _, ?_, .entered reports recorded body tour⟩
        simp only [body, ran]
        rfl

end CypherAssist.Grammar
