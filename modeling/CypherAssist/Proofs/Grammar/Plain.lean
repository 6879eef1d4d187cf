import CypherAssist.Proofs.Grammar.Acceptance
import CypherAssist.Proofs.Grammar.Lifting

/-! Parsing with nothing recorded. The plain interpreter works a rule out anew wherever the rule is
entered. A record may stand in for it: what a rule gives does not depend on what the parser has
learned so far, and to work a rule out again asks for no token that is not known already. The empty
record of a rule that is still open is never read, where there is no left recursion. -/
namespace CypherAssist.Grammar
open Token Outcomes Parts Relation

/-- The derivations of a rule at a position, without any records. -/
def plainRule (grammar : Grammar) (kinds : Array Kind) :
    Nat → Rule → Nat → ParserM (Outcomes Derivation)
  | 0, _, _ => throw .tooDeep
  | depth + 1, rule, position =>
    match grammar rule with
    | none => throw (.undefined rule)
    | some element => do
      return Outcomes.close rule (← element.parts kinds (plainRule grammar kinds depth) position)

/-- The plain interpreter, to a depth that it does not reach without left recursion. -/
def plainAt (grammar : Grammar) (kinds : Array Kind) (rule : Rule) (position : Nat) :
    ParserM (Outcomes Derivation) :=
  plainRule grammar kinds (fullDepth kinds.size) rule position

/-- The later state knows at least as much about the farthest token asked for in vain. -/
def Later (earlier later : ParserState) : Prop :=
  earlier.farthest < later.farthest ∨
    (earlier.farthest = later.farthest ∧ earlier.expected ⊆ later.expected)

/-- The two states know the same about the farthest token asked for in vain. -/
structure SameAsked (one other : ParserState) : Prop where
  farthest : one.farthest = other.farthest
  expected : one.expected = other.expected

/-- What the action gives does not depend on the state, and once the action has run, it may be run
again at any time without learning anything new. -/
structure Steady (action : ParserM α) (holds : α → Prop) : Prop where
  blind : ∀ state other, (action state).map Prod.fst = (action other).map Prod.fst
  settled : ∀ state value after, action state = .ok (value, after) →
    holds value ∧ Later state after ∧ ∀ other, Later after other → action other = .ok (value, other)

/-- That an action is steady, as a relation of the action to itself. -/
def Steadily : Relating :=
  fun _ action _ holds => Steady action holds

/-- What can be observed of a run: the derivations, the farthest position at which a token was asked
for in vain, and the kinds asked for there. -/
def observed (outcome : Outcomes Derivation × ParserState) :
    Outcomes Derivation × Nat × List Kind :=
  (outcome.1, outcome.2.farthest, outcome.2.expected)

/-- Every record belongs to a rule still open, or is what the plain interpreter gives from here on
without learning anything new. -/
def Trusts (grammar : Grammar) (kinds : Array Kind) (opened : Set (Rule × Nat))
    (state : ParserState) : Prop :=
  ∀ rule position found, state.recorded[(rule, position)]? = some found →
    (rule, position) ∈ opened ∨
      ∀ other, Later state other → plainAt grammar kinds rule position other = .ok (found, other)

/-- With records that can be trusted, the action fails where the plain one does. Otherwise it gives
the same value, learns the same and leaves records that can be trusted. -/
def Echoes (grammar : Grammar) (kinds : Array Kind) (opened : Set (Rule × Nat)) : Relating :=
  fun _ plain action holds => ∀ state own, SameAsked state own → Trusts grammar kinds opened own →
    (∀ obstacle, plain state = .error obstacle → action own = .error obstacle) ∧
    ∀ value after, plain state = .ok (value, after) → holds value ∧
      ∃ behind, action own = .ok (value, behind) ∧ SameAsked after behind ∧
        Trusts grammar kinds opened behind

variable {grammar : Grammar} {kinds : Array Kind} {opened : Set (Rule × Nat)} {depth : Nat}

/-! ## States -/

theorem later_refl (state : ParserState) : Later state state :=
  .inr ⟨rfl, List.Subset.refl _⟩

theorem later_trans {first second third : ParserState} (one : Later first second)
    (two : Later second third) : Later first third := by
  rcases one with far | ⟨same, known⟩ <;> rcases two with farther | ⟨alike, more⟩
  · exact .inl (Nat.lt_trans far farther)
  · exact .inl (alike ▸ far)
  · exact .inl (same ▸ farther)
  · exact .inr ⟨same.trans alike, List.Subset.trans known more⟩

theorem later_of_sameAsked {one other : ParserState} (same : SameAsked one other) :
    Later one other :=
  .inr ⟨same.farthest, same.expected ▸ List.Subset.refl _⟩

theorem sameAsked_symm {one other : ParserState} (same : SameAsked one other) :
    SameAsked other one :=
  ⟨same.farthest.symm, same.expected.symm⟩

theorem sameAsked_expect {one other : ParserState} (same : SameAsked one other) (position : Nat)
    (kind : Kind) : SameAsked (one.expect position kind) (other.expect position kind) := by
  obtain ⟨farthest, expected⟩ := same
  simp only [ParserState.expect, farthest, expected]
  split
  · exact ⟨rfl, rfl⟩
  · split
    · exact ⟨rfl, rfl⟩
    · exact ⟨farthest, expected⟩

theorem later_expect (state : ParserState) (position : Nat) (kind : Kind) :
    Later state (state.expect position kind) := by
  unfold ParserState.expect
  split
  · exact .inl ‹_›
  · split
    · exact .inr ⟨rfl, List.subset_append_left ..⟩
    · exact later_refl state

/-- Once a kind was asked for, asking for it again teaches nothing. -/
theorem expect_of_later {state other : ParserState} {position : Nat} {kind : Kind}
    (later : Later (state.expect position kind) other) : other.expect position kind = other := by
  have known : position < other.farthest ∨ (position = other.farthest ∧ kind ∈ other.expected) := by
    unfold ParserState.expect at later
    split at later
    · rcases later with far | ⟨same, known⟩
      · exact .inl far
      · exact .inr ⟨same, known (by simp)⟩
    · rename_i nearer
      split at later
      · rename_i here
        rcases later with far | ⟨same, known⟩
        · exact .inl (by simp only at far; omega)
        · exact .inr ⟨here.1.trans same, known (by simp)⟩
      · rename_i old
        rcases later with far | ⟨same, known⟩
        · exact .inl (by omega)
        · by_cases here : position = state.farthest
          · have member : kind ∈ state.expected := by
              by_contra unknown
              exact old ⟨here, unknown⟩
            exact .inr ⟨here.trans same, known member⟩
          · exact .inl (by omega)
  unfold ParserState.expect
  rw [if_neg (by omega), if_neg]
  rintro ⟨here, unknown⟩
  rcases known with nearer | ⟨-, member⟩
  · omega
  · exact unknown member

/-! ## Steady actions -/

theorem steady_throw {holds : α → Prop} (obstacle : Obstacle) :
    Steady (throw obstacle : ParserM α) holds :=
  ⟨fun _ _ => rfl, fun _ _ _ ran => nomatch ran⟩

theorem sequencing_steady : Sequencing Steadily where
  pure here := by
    refine ⟨fun _ _ => rfl, fun state value after ran => ?_⟩
    cases ran
    exact ⟨here, later_refl state, fun _ _ => rfl⟩
  bind {_ _ one _ next _ _ _} first second := by
    refine ⟨fun state other => ?_, fun state result final ran => ?_⟩
    · have same := first.blind state other
      cases ran : one state with
      | error obstacle =>
        rw [ran] at same
        rw [bind_of_error ran, bind_of_error (eq_error_of_map_eq_error same.symm)]
      | ok outcome =>
        obtain ⟨value, after⟩ := outcome
        rw [ran] at same
        obtain ⟨⟨_, behind⟩, also, rfl⟩ := exists_of_map_eq_ok same.symm
        rw [bind_of_ok ran, bind_of_ok also]
        exact (second _ (first.settled _ _ _ ran).1).blind after behind
    · obtain ⟨value, middle, passed, ran⟩ := exists_of_bind_eq_ok ran
      obtain ⟨here, onward, again⟩ := first.settled _ _ _ passed
      obtain ⟨there, further, also⟩ := (second value here).settled _ _ _ ran
      refine ⟨there, later_trans onward further, fun other beyond => ?_⟩
      rw [bind_of_ok (again other (later_trans further beyond))]
      exact also other beyond
  expect position kind := by
    refine ⟨fun _ _ => rfl, fun state value after ran => ?_⟩
    cases ran
    refine ⟨trivial, later_expect .., fun other beyond => ?_⟩
    exact congrArg (fun known => Except.ok ((), known)) (expect_of_later beyond)

/-- The plain interpreter is steady, and derives what is genuine. -/
theorem plainRule_steady (depth : Nat) (rule : Rule) (position : Nat) :
    RelatesRule Steadily grammar kinds (plainRule grammar kinds depth)
      (plainRule grammar kinds depth) rule position := by
  induction depth generalizing rule position with
  | zero => exact steady_throw _
  | succ depth ih =>
    simp only [RelatesRule, plainRule]
    cases defined : grammar rule with
    | none => exact steady_throw _
    | some element =>
      exact sequencing_steady.bind
        (parts_relates sequencing_steady element position fun target place _ => ih target place)
        fun found derived => sequencing_steady.pure (genuine_close defined derived)

/-! ## Depth -/

/-- The actions are one, and what it gives is as it should be. -/
def Same : Relating := fun _ one other holds =>
  one = other ∧ ∀ state value after, one state = .ok (value, after) → holds value

theorem sequencing_same : Sequencing Same where
  pure here := by
    refine ⟨rfl, fun state value after ran => ?_⟩
    cases ran
    exact here
  bind {_ _ one other next after _ _} first second := by
    obtain ⟨rfl, gives⟩ := first
    refine ⟨?_, fun state result final ran => ?_⟩
    · funext state
      cases ran : one state with
      | error obstacle => rw [bind_of_error ran, bind_of_error ran]
      | ok outcome =>
        rw [bind_of_ok ran, bind_of_ok ran, (second _ (gives _ _ _ ran)).1]
    · obtain ⟨value, middle, passed, ran⟩ := exists_of_bind_eq_ok ran
      exact (second value (gives _ _ _ passed)).2 _ _ _ ran
  expect position kind := ⟨rfl, fun _ _ _ _ => trivial⟩

/-- A depth beyond the burden of a rule makes no difference. -/
theorem plainRule_stable (free : LeftRecursionFree grammar) {other : Nat}
    (deep : burden grammar kinds.size rule position < depth)
    (alsoDeep : burden grammar kinds.size rule position < other) :
    plainRule grammar kinds depth rule position = plainRule grammar kinds other rule position := by
  induction depth generalizing other rule position with
  | zero => exact absurd deep (Nat.not_lt_zero _)
  | succ depth ih =>
    cases other with
    | zero => exact absurd alsoDeep (Nat.not_lt_zero _)
    | succ other =>
      simp only [plainRule]
      cases defined : grammar rule with
      | none => rfl
      | some element =>
        have calls (target place)
            (called : Calls grammar kinds.size element position target place) :
            RelatesRule Same grammar kinds (plainRule grammar kinds depth)
              (plainRule grammar kinds other) target place := by
          have less := burden_lt_of_calls free defined called
          exact ⟨ih (by omega) (by omega), fun state value after ran =>
            ((plainRule_steady depth target place).settled state value after ran).1⟩
        simp only [(parts_relates sequencing_same element position calls).1]

theorem plainAt_undefined (free : LeftRecursionFree grammar) (absent : grammar rule = none)
    (position : Nat) (state : ParserState) :
    plainAt grammar kinds rule position state = .error (.undefined rule) := by
  have deep := burden_lt_fullDepth free kinds.size rule position
  rw [plainAt, plainRule_stable free (by omega) (Nat.lt_succ_self _), plainRule, absent]
  rfl

/-- The plain interpreter works out a rule by its element, and the rules below in the same way. -/
theorem plainAt_apply (free : LeftRecursionFree grammar) (defined : grammar rule = some element)
    (kinds : Array Kind) (position : Nat) (state : ParserState) :
    plainAt grammar kinds rule position state =
      (element.parts kinds (plainAt grammar kinds) position state).map
        fun outcome => (Outcomes.close rule outcome.1, outcome.2) := by
  have deep := burden_lt_fullDepth free kinds.size rule position
  rw [plainAt, plainRule_stable free (by omega) (Nat.lt_succ_self _), plainRule, defined]
  have calls (target place) (called : Calls grammar kinds.size element position target place) :
      RelatesRule Same grammar kinds
        (plainRule grammar kinds (burden grammar kinds.size rule position))
        (plainAt grammar kinds) target place :=
    ⟨plainRule_stable free (burden_lt_of_calls free defined called)
        (Nat.lt_of_succ_lt (burden_lt_fullDepth free ..)), fun state value after ran =>
      ((plainRule_steady _ target place).settled state value after ran).1⟩
  simp only [(parts_relates sequencing_same element position calls).1]
  cases ran : element.parts kinds (plainAt grammar kinds) position state with
  | error => exact bind_of_error ran
  | ok => exact bind_of_ok ran

/-! ## Records -/

theorem sequencing_echoes : Sequencing (Echoes grammar kinds opened) where
  pure here := by
    refine fun state own same trusts => ⟨fun _ failed => (nomatch failed), ?_⟩
    intro value after ran
    cases ran
    exact ⟨here, own, rfl, same, trusts⟩
  bind {_ _ one other next after _ _} first second := by
    intro state own same trusts
    obtain ⟨fails, gives⟩ := first state own same trusts
    refine ⟨fun obstacle failed => ?_, fun result final ran => ?_⟩
    · cases ran : one state with
      | error found =>
        rw [bind_of_error ran] at failed
        cases failed
        exact bind_of_error (fails _ ran)
      | ok outcome =>
        obtain ⟨value, middle⟩ := outcome
        obtain ⟨here, behind, also, alike, kept⟩ := gives value middle ran
        rw [bind_of_ok ran] at failed
        rw [bind_of_ok also]
        exact (second value here middle behind alike kept).1 obstacle failed
    · obtain ⟨value, middle, passed, ran⟩ := exists_of_bind_eq_ok ran
      obtain ⟨here, behind, also, alike, kept⟩ := gives value middle passed
      rw [bind_of_ok also]
      exact (second value here middle behind alike kept).2 result final ran
  expect position kind := by
    refine fun state own same trusts => ⟨fun _ failed => (nomatch failed), ?_⟩
    intro value after ran
    cases ran
    refine ⟨trivial, own.expect position kind, rfl, sameAsked_expect same position kind, ?_⟩
    intro rule place found present
    rw [recorded_expect] at present
    exact (trusts rule place found present).imp_right fun settled other later =>
      settled other (later_trans (later_expect ..) later)

/-- A rule is parsed as the plain interpreter does it, while every rule still open has more
burden. -/
theorem parseRule_echoes (free : LeftRecursionFree grammar)
    (deep : burden grammar kinds.size rule position < depth)
    (above : ∀ other ∈ opened, burden grammar kinds.size rule position <
      burden grammar kinds.size other.1 other.2) :
    RelatesRule (Echoes grammar kinds opened) grammar kinds (plainAt grammar kinds)
      (parseRule grammar kinds depth) rule position := by
  induction depth generalizing rule position opened with
  | zero => exact absurd deep (Nat.not_lt_zero _)
  | succ depth ih =>
    intro state own same trusts
    have steady : Steady (plainAt grammar kinds rule position) _ := plainRule_steady ..
    rw [parseRule_apply]
    cases known : own.recorded[(rule, position)]? with
    | some found =>
      rcases trusts rule position found known with inside | settled
      · exact absurd (above _ inside) (Nat.lt_irrefl _)
      · have again := settled state (later_of_sameAsked (sameAsked_symm same))
        rw [again]
        refine ⟨fun _ failed => (nomatch failed), fun value after ran => ?_⟩
        cases ran
        exact ⟨(steady.settled _ _ _ again).1, own, rfl, same, trusts⟩
    | none =>
      cases defined : grammar rule with
      | none =>
        rw [plainAt_undefined free defined]
        exact ⟨fun _ failed => failed, fun _ _ ran => nomatch ran⟩
      | some element =>
        have plain := plainAt_apply free defined kinds position state
        have calls (target place)
            (called : Calls grammar kinds.size element position target place) :
            RelatesRule (Echoes grammar kinds (insert (rule, position) opened)) grammar kinds
              (plainAt grammar kinds) (parseRule grammar kinds depth) target place := by
          have less := burden_lt_of_calls free defined called
          exact ih (by omega) (burden_lt_opened free defined called above)
        have begun : SameAsked state (own.record rule position []) := ⟨same.1, same.2⟩
        obtain ⟨fails, gives⟩ := parts_relates sequencing_echoes element position calls state _
          begun (recorded_open trusts rule position [])
        refine ⟨fun obstacle failed => ?_, fun value after ran => ?_⟩
        · rw [plain] at failed
          simp only [fails obstacle (eq_error_of_map_eq_error failed), Except.map]
        · have closed := steady.settled _ _ _ ran
          rw [plain] at ran
          obtain ⟨⟨parts, final⟩, passed, same⟩ := exists_of_map_eq_ok ran
          cases same
          obtain ⟨-, behind, also, alike, kept⟩ := gives parts final passed
          simp only [also, Except.map]
          refine ⟨closed.1, _, rfl, ⟨alike.1, alike.2⟩, recorded_close kept fun other later => ?_⟩
          exact closed.2.2 other (later_trans (later_of_sameAsked alike) later)

/-! ## Runs -/

theorem plainAt_eq (free : LeftRecursionFree grammar) (deep : fullDepth kinds.size ≤ depth)
    (rule : Rule) (position : Nat) :
    plainRule grammar kinds depth rule position = plainAt grammar kinds rule position := by
  have bound := burden_lt_fullDepth free kinds.size rule position
  exact plainRule_stable free (by omega) (by omega)

/-- A run from any state with records that can be trusted. -/
theorem run_echoes (free : LeftRecursionFree grammar) (deep : fullDepth kinds.size ≤ depth)
    (rule : Rule) (position : Nat) (trusts : Trusts grammar kinds ∅ state) :
    (∀ obstacle, plainRule grammar kinds depth rule position state = .error obstacle →
      parseRule grammar kinds depth rule position state = .error obstacle) ∧
    ∀ value after, plainRule grammar kinds depth rule position state = .ok (value, after) →
      ∃ behind, parseRule grammar kinds depth rule position state = .ok (value, behind) ∧
        SameAsked after behind ∧ Trusts grammar kinds ∅ behind := by
  have bound := burden_lt_fullDepth free kinds.size rule position
  rw [plainAt_eq free deep]
  have echoes : RelatesRule (Echoes grammar kinds ∅) grammar kinds (plainAt grammar kinds)
      (parseRule grammar kinds depth) rule position :=
    parseRule_echoes free (by omega) fun _ inside => inside.elim
  obtain ⟨fails, gives⟩ := echoes state state ⟨rfl, rfl⟩ trusts
  exact ⟨fails, fun value after ran => (gives value after ran).2⟩

/-- Parsing leaves nothing that could not be trusted. -/
theorem trusts_of_used (free : LeftRecursionFree grammar) (deep : fullDepth kinds.size ≤ depth)
    (used : Used grammar kinds depth state) : Trusts grammar kinds ∅ state := by
  induction used with
  | fresh => exact fun rule position found present => by simp at present
  | @again state rule position _ _ _ ran ih =>
    obtain ⟨fails, gives⟩ := run_echoes free deep rule position ih
    cases plain : plainRule grammar kinds depth rule position state with
    | error obstacle => cases ran.symm.trans (fails obstacle plain)
    | ok outcome =>
      obtain ⟨behind, also, -, kept⟩ := gives outcome.1 outcome.2 plain
      cases ran.symm.trans also
      exact kept

/-- Records change nothing that can be seen. In whatever way a parser without left recursion has
been used, it gives the derivations of the plain interpreter in their order, and it fails only where
that meets an undefined rule; a new one also learns the same. Cypher is without left recursion. -/
theorem records_unseen :
    (∀ (grammar : Grammar) (kinds : Array Kind) (depth : Nat) (rule : Rule) (position : Nat),
      LeftRecursionFree grammar → fullDepth kinds.size ≤ depth →
        (∀ state, Used grammar kinds depth state →
          (parseRule grammar kinds depth rule position state).map Prod.fst =
            (plainRule grammar kinds depth rule position {}).map Prod.fst) ∧
        (parseFrom grammar kinds depth rule position).map observed =
          (plainRule grammar kinds depth rule position {}).map observed ∧
        ∀ obstacle, plainRule grammar kinds depth rule position {} = .error obstacle →
          ∃ target, grammar target = none ∧ obstacle = .undefined target) ∧
    LeftRecursionFree cypher := by
  refine ⟨fun grammar kinds depth rule position free deep => ⟨fun state used => ?_, ?_, ?_⟩,
    cypher_leftRecursionFree⟩
  · rw [(plainRule_steady depth rule position).blind {} state]
    obtain ⟨fails, gives⟩ := run_echoes free deep rule position (trusts_of_used free deep used)
    cases plain : plainRule grammar kinds depth rule position state with
    | error obstacle => rw [fails obstacle plain]
    | ok outcome =>
      obtain ⟨behind, also, -, -⟩ := gives outcome.1 outcome.2 plain
      rw [also]
      rfl
  · obtain ⟨fails, gives⟩ := run_echoes free deep rule position (trusts_of_used free deep .fresh)
    rw [parseFrom, StateT.run]
    cases plain : plainRule grammar kinds depth rule position {} with
    | error obstacle => rw [fails obstacle plain]
    | ok outcome =>
      obtain ⟨behind, also, alike, -⟩ := gives outcome.1 outcome.2 plain
      rw [also]
      simp only [Except.map, observed, alike.farthest, alike.expected]
  · intro obstacle failed
    obtain ⟨fails, -⟩ := run_echoes free deep rule position (trusts_of_used free deep .fresh)
    have excuse := parseFrom_performs free kinds depth rule position
    rw [parseFrom, StateT.run, fails obstacle failed] at excuse
    cases excuse with
    | deep short =>
      have bound := burden_lt_fullDepth free kinds.size rule position
      omega
    | undefined _ absent => exact ⟨_, absent, rfl⟩

/-- A parser that has parsed a clause as a document gives for it, asked once more or asked for the
query alone, what the plain interpreter gives. -/
theorem return_name_parsed_plainly :
    ∃ found state,
      parseFrom cypher #[.keyword .RETURN, .plainName] (fullDepth 2) .statements 0 =
        .ok (found, state) ∧
      (plainRule cypher #[.keyword .RETURN, .plainName] (fullDepth 2) .statements 0 {}).map
        observed = .ok (found, state.farthest, state.expected) ∧
      ∀ rule,
      (parseRule cypher #[.keyword .RETURN, .plainName] (fullDepth 2) rule 0 state).map Prod.fst =
      (plainRule cypher #[.keyword .RETURN, .plainName] (fullDepth 2) rule 0 {}).map Prod.fst := by
  have unseen (rule) := records_unseen.1 cypher #[.keyword .RETURN, .plainName] (fullDepth 2) rule 0
    cypher_leftRecursionFree (Nat.le_refl _)
  obtain ⟨found, state, ran⟩ : ∃ found state,
      parseFrom cypher #[.keyword .RETURN, .plainName] (fullDepth 2) .statements 0 =
        .ok (found, state) :=
    parseFrom_succeeds cypher_leftRecursionFree cypher_closed rfl (Nat.le_refl _) 0
  refine ⟨found, state, ran, ?_, fun rule => (unseen rule).1 state (.again .fresh ran)⟩
  rw [← (unseen .statements).2.1, ran]
  rfl

end CypherAssist.Grammar
