import CypherAssist.Grammar.Candidate
import CypherAssist.Proofs.Grammar.Memory
import Mathlib.Data.List.TakeWhile

/-! What a walk to the caret finds. It arrives at the ends of words over the tokens before the
caret, and reports each kind of token that some path asks for there while no preferred rule is
open. A visit inside a preferred rule reports no token, and its record is used again outside of
one. This hides nothing where such a visit has no token to report in either case. Of the preferred
rules it reports at least those that are found without looking at the rules around. -/
namespace CypherAssist.Grammar
open Token Relation

/-! ## Ascending positions -/

/-- A list of positions without repetition, in ascending order, that holds these. -/
structure Lists (positions : List Nat) (holds : Nat → Prop) : Prop where
  ascending : positions.Pairwise (· < ·)
  mem_iff : ∀ position, position ∈ positions ↔ holds position

variable {holds also : Nat → Prop}

theorem lists_nil (none : ∀ position, ¬ holds position) : Lists [] holds :=
  ⟨.nil, fun position => by simp [none]⟩

theorem lists_singleton {position : Nat} (only : ∀ other, holds other ↔ other = position) :
    Lists [position] holds :=
  ⟨List.pairwise_singleton .., fun other => by simp [only]⟩

theorem lists_congr (lists : Lists positions holds)
    (same : ∀ position, holds position ↔ also position) :
    Lists positions also :=
  ⟨lists.ascending, fun position => (lists.mem_iff position).trans (same position)⟩

theorem mem_dropWhile_le {position other : Nat} {positions : List Nat}
    (ascending : positions.Pairwise (· < ·)) :
    other ∈ positions.dropWhile (· ≤ position) ↔ other ∈ positions ∧ position < other := by
  induction positions with
  | nil => simp
  | cons first rest ih =>
    obtain ⟨above, ascendingRest⟩ := List.pairwise_cons.mp ascending
    rw [List.dropWhile_cons]
    split
    · rename_i small
      simp only [decide_eq_true_eq] at small
      rw [ih ascendingRest, List.mem_cons]
      constructor
      · exact fun found => ⟨.inr found.1, found.2⟩
      · rintro ⟨rfl | found, larger⟩
        · omega
        · exact ⟨found, larger⟩
    · rename_i large
      simp only [decide_eq_true_eq, Nat.not_le] at large
      refine ⟨fun found => ⟨found, ?_⟩, And.left⟩
      rcases List.mem_cons.mp found with rfl | found
      · exact large
      · exact Nat.lt_trans large (above other found)

theorem mem_takeWhile_lt {position other : Nat} {positions : List Nat}
    (ascending : positions.Pairwise (· < ·)) :
    other ∈ positions.takeWhile (· < position) ↔ other ∈ positions ∧ other < position := by
  induction positions with
  | nil => simp
  | cons first rest ih =>
    obtain ⟨above, ascendingRest⟩ := List.pairwise_cons.mp ascending
    rw [List.takeWhile_cons]
    split
    · rename_i small
      simp only [decide_eq_true_eq] at small
      rw [List.mem_cons, ih ascendingRest, List.mem_cons]
      constructor
      · rintro (rfl | found)
        · exact ⟨.inl rfl, small⟩
        · exact ⟨.inr found.1, found.2⟩
      · rintro ⟨rfl | found, smaller⟩
        · exact .inl rfl
        · exact .inr ⟨found, smaller⟩
    · rename_i large
      simp only [decide_eq_true_eq, Nat.not_lt] at large
      simp only [List.not_mem_nil, List.mem_cons, false_iff, not_and, Nat.not_lt]
      rintro (rfl | found)
      · exact large
      · exact Nat.le_trans large (Nat.le_of_lt (above other found))

theorem mem_union {position : Nat} {first second : List Nat} (ascending : second.Pairwise (· < ·)) :
    position ∈ union first second ↔ position ∈ first ∨ position ∈ second := by
  induction first generalizing second with
  | nil => simp [union]
  | cons least rest ih =>
    have later : (second.dropWhile (· ≤ least)).Pairwise (· < ·) :=
      ascending.sublist (List.dropWhile_sublist _)
    rw [union, List.mem_append, List.mem_cons, ih later, mem_takeWhile_lt ascending,
      mem_dropWhile_le ascending, List.mem_cons]
    rcases Nat.lt_trichotomy position least with below | rfl | above
    · simp [below, Nat.not_lt_of_lt below, Nat.ne_of_lt below, or_comm]
    · simp
    · simp [above, Nat.not_lt_of_lt above, Nat.ne_of_gt above]

/-- Merging ascending lists gives an ascending list of both. -/
theorem union_ascending {first second : List Nat} (one : first.Pairwise (· < ·))
    (two : second.Pairwise (· < ·)) :
    (union first second).Pairwise (· < ·) := by
  induction first generalizing second with
  | nil => exact two
  | cons least rest ih =>
    obtain ⟨above, ascendingRest⟩ := List.pairwise_cons.mp one
    have later : (second.dropWhile (· ≤ least)).Pairwise (· < ·) :=
      two.sublist (List.dropWhile_sublist _)
    have least_lt (position) (member : position ∈ union rest (second.dropWhile (· ≤ least))) :
        least < position := by
      rcases (mem_union later).mp member with inRest | inSecond
      · exact above position inRest
      · exact ((mem_dropWhile_le two).mp inSecond).2
    rw [union]
    refine List.pairwise_append.mpr ⟨two.sublist (List.takeWhile_sublist _),
      List.pairwise_cons.mpr ⟨least_lt, ih ascendingRest later⟩,
      fun position before other behind => ?_⟩
    have small := ((mem_takeWhile_lt two).mp before).2
    rcases List.mem_cons.mp behind with rfl | behind
    · exact small
    · exact Nat.lt_trans small (least_lt other behind)

theorem lists_union {first second : List Nat} (one : Lists first holds) (two : Lists second also) :
    Lists (union first second) fun position => holds position ∨ also position :=
  ⟨union_ascending one.ascending two.ascending, fun position => by
    rw [mem_union two.ascending, one.mem_iff, two.mem_iff]⟩

theorem lists_filter {positions : List Nat} (lists : Lists positions holds) (keeps : Nat → Bool) :
    Lists (positions.filter keeps) fun position => holds position ∧ keeps position :=
  ⟨lists.ascending.filter _, fun position => by rw [List.mem_filter, lists.mem_iff]⟩

/-! ## Reports -/

namespace Caret

/-- The kinds of the tokens before the caret. -/
def before (caret : Caret) : List Kind := (caret.tokens.toList.take caret.position).map (·.kind)

/-- A rule may be open where tokens are reported. -/
def Admits (caret : Caret) (rule : Rule) : Prop := ¬ caret.prefers rule

/-- No preferred rule is open. -/
def Clear (caret : Caret) (stack : List Frame) : Prop := ∀ frame ∈ stack, caret.Admits frame.rule

theorem length_before (caret : Caret) : caret.before.length = caret.position := by
  rw [before, List.length_map, List.length_take, Array.length_toList, position]
  omega

/-- In front of the caret the tokens of the walk are those of the text. -/
theorem getElem?_before (caret : Caret) {position : Nat} (earlier : position < caret.position) :
    caret.before[position]? = caret.tokens[position]?.map (·.kind) := by
  rw [before, List.getElem?_map, List.getElem?_take_of_lt earlier, Array.getElem?_toList]

end Caret

/-- The kinds of token reported. -/
def WalkState.reported (state : WalkState) : Set Kind :=
  {kind | ∃ candidate ∈ state.candidates.tokens, candidate.kind = kind}

/-- The kinds, but for those ignored, that a path through the element asks for at the caret while no
preferred rule is open. -/
def asks (grammar : Grammar) (caret : Caret) (element : Element) (position : Nat) : Set Kind :=
  {kind | caret.ignored.contains kind = false ∧
    Meets grammar caret.Admits caret.before element position caret.position kind}

/-- A walk may be inside a preferred rule only where it has nothing to report. -/
def Fits (grammar : Grammar) (caret : Caret) (stack : List Frame) (element : Element)
    (position : Nat) : Prop :=
  caret.Clear stack ∨ asks grammar caret element position = ∅

/-- Wherever a walk comes to the element, it reports the preferred rule: some path through the
element arrives at the rule at the caret, or at a token there in the right-hand side of the rule
itself. The element stands in the right-hand side of `holder?`. At the caret no preferred rule is
entered. -/
inductive Tells (grammar : Grammar) (caret : Caret) (found : Rule) :
    Option Rule → Element → Nat → Prop where
  | token (preferred : caret.prefers found) :
    Tells grammar caret found (some found) (.token asked) caret.position
  | arrives (preferred : caret.prefers found) :
    Tells grammar caret found holder? (.reference found) caret.position
  | enters (passes : ¬ (position = caret.position && caret.prefers rule))
    (defined : grammar rule = some element)
    (inside : Tells grammar caret found (some rule) element position) :
    Tells grammar caret found holder? (.reference rule) position
  | head (inside : Tells grammar caret found holder? item position) :
    Tells grammar caret found holder? (.sequence (item :: rest)) position
  | tail (before : Spans grammar caret.before item position middle)
    (inside : Tells grammar caret found holder? (.sequence rest) middle) :
    Tells grammar caret found holder? (.sequence (item :: rest)) position
  | choice (member : option ∈ options)
    (inside : Tells grammar caret found holder? option position) :
    Tells grammar caret found holder? (.choice options) position
  | optional (inside : Tells grammar caret found holder? item position) :
    Tells grammar caret found holder? (.optional item) position
  | repeated (before : Spans grammar caret.before (.repeated item) position middle)
    (inside : Tells grammar caret found holder? item middle) :
    Tells grammar caret found holder? (.repeated item) position

/-- The preferred rules that a walk cannot miss. -/
def tells (grammar : Grammar) (caret : Caret) (holder? : Option Rule) (element : Element)
    (position : Nat) : Set Rule :=
  {found | Tells grammar caret found holder? element position}

/-- The rules reported. -/
def WalkState.told (state : WalkState) : Set Rule :=
  {rule | ∃ candidate ∈ state.candidates.rules, candidate.rule = rule}

/-- The rule in whose right-hand side a walk is. -/
def holder? (stack : List Frame) : Option Rule := stack.head?.map (·.rule)

variable {grammar : Grammar} {caret : Caret} {stack : List Frame} {kind : Kind}

theorem reported_addToken (state : WalkState) (candidate : TokenCandidate) :
    {state with candidates := state.candidates.addToken candidate}.reported =
      state.reported ∪ {candidate.kind} := by
  ext kind
  simp only [WalkState.reported, Candidates.addToken, Set.mem_union, Set.mem_singleton_iff,
    Set.mem_ofPred_eq]
  split
  · rename_i known
    obtain ⟨earlier, member, same⟩ := List.any_eq_true.mp known
    simp only [decide_eq_true_eq] at same
    refine ⟨.inl, ?_⟩
    rintro (found | rfl)
    · exact found
    · exact ⟨earlier, member, same⟩
  · simp only [List.mem_append, List.mem_singleton, or_and_right, exists_or, exists_eq_left]
    exact or_congr_right eq_comm

theorem reported_addRule (state : WalkState) (candidate : RuleCandidate) :
    {state with candidates := state.candidates.addRule candidate}.reported = state.reported := by
  simp only [WalkState.reported, Candidates.addRule]
  split <;> rfl

theorem told_addRule (state : WalkState) (candidate : RuleCandidate) :
    {state with candidates := state.candidates.addRule candidate}.told =
      state.told ∪ {candidate.rule} := by
  ext rule
  simp only [WalkState.told, Candidates.addRule, Set.mem_union, Set.mem_singleton_iff,
    Set.mem_ofPred_eq]
  split
  · rename_i known
    obtain ⟨earlier, member, same⟩ := List.any_eq_true.mp known
    simp only [decide_eq_true_eq] at same
    refine ⟨.inl, ?_⟩
    rintro (found | rfl)
    · exact found
    · exact ⟨earlier, member, same⟩
  · simp only [List.mem_append, List.mem_singleton, or_and_right, exists_or, exists_eq_left]
    exact or_congr_right eq_comm

theorem told_addToken (state : WalkState) (candidate : TokenCandidate) :
    {state with candidates := state.candidates.addToken candidate}.told = state.told := by
  simp only [WalkState.told, Candidates.addToken]
  split <;> rfl

theorem dropWhile_clear (clear : caret.Clear stack) :
    stack.dropWhile (fun frame => !caret.prefers frame.rule) = [] := by
  refine List.dropWhile_eq_nil_iff.mpr fun frame member => ?_
  simpa [Caret.Admits] using clear frame member

/-- A report adds the kind of a token that is not ignored, unless a preferred rule is open. -/
theorem reported_report (state : WalkState) (follow : List Element)
    (fits : Fits grammar caret stack (.token kind) caret.position) :
    (state.report caret kind stack follow).reported =
      state.reported ∪ asks grammar caret (.token kind) caret.position := by
  have asked : asks grammar caret (.token kind) caret.position =
      if caret.ignored.contains kind then ∅ else {kind} := by
    ext other
    split
    · rename_i ignored
      refine ⟨?_, False.elim⟩
      rintro ⟨wanted, meets⟩
      cases meets
      rw [ignored] at wanted
      cases wanted
    · rename_i wanted
      constructor
      · rintro ⟨-, meets⟩
        cases meets
        rfl
      · rintro rfl
        exact ⟨by simpa using wanted, .token⟩
  unfold WalkState.report
  rcases fits with clear | quiet
  · rw [dropWhile_clear clear, asked]
    simp only
    split
    · rw [Set.union_empty]
    · exact reported_addToken state _
  · rw [quiet, Set.union_empty]
    split
    · exact reported_addRule state _
    · split
      · rfl
      · rename_i wanted
        rw [asked, if_neg wanted] at quiet
        exact absurd quiet (Set.singleton_ne_empty kind)

/-- A report takes no rule back, and names the rule that the token stands in if it is preferred. -/
theorem told_report (state : WalkState) (follow : List Element) :
    state.told ∪ tells grammar caret (holder? stack) (.token kind) caret.position ⊆
      (state.report caret kind stack follow).told := by
  have asked (rule : Rule)
      (wanted : rule ∈ tells grammar caret (holder? stack) (.token kind) caret.position) :
      ∃ frame outer, stack = frame :: outer ∧ frame.rule = rule ∧ caret.prefers rule := by
    generalize same : holder? stack = holder at wanted
    cases wanted with
    | token preferred =>
      obtain ⟨frame, head, rfl⟩ := Option.map_eq_some_iff.mp same
      obtain ⟨outer, rfl⟩ := List.head?_eq_some_iff.mp head
      exact ⟨frame, outer, rfl, rfl, preferred⟩
  unfold WalkState.report
  split
  · rename_i frame outer split
    rw [told_addRule]
    refine Set.union_subset_union_right _ fun rule wanted => ?_
    obtain ⟨top, below, rfl, rfl, preferred⟩ := asked rule wanted
    rw [List.dropWhile_cons, if_neg (by simp [preferred])] at split
    cases split
    rfl
  · rename_i clear
    have kept : state.told ∪ tells grammar caret (holder? stack) (.token kind) caret.position ⊆
        state.told := by
      refine Set.union_subset (fun _ inside => inside) fun rule wanted => ?_
      obtain ⟨top, below, rfl, rfl, preferred⟩ := asked rule wanted
      simp [preferred] at clear
    split
    · exact kept
    · rwa [told_addToken]

/-! ## Actions -/

/-- Every record belongs to a rule still open, or lists where the words of its rule end, and then
the kinds that the rule asks for have been reported, and the rules that it tells. -/
def Settled (grammar : Grammar) (caret : Caret) (opened : Set (Rule × Nat)) (state : WalkState) :
    Prop :=
  ∀ rule position ends, state.recorded[(rule, position)]? = some ends →
    (rule, position) ∈ opened ∨
      (Lists ends (Spans grammar caret.before (.reference rule) position) ∧
        asks grammar caret (.reference rule) position ⊆ state.reported ∧
        tells grammar caret none (.reference rule) position ⊆ state.told)

/-- Run with settled records, the action fails only for a reason given. Otherwise it arrives at
these places, reports these kinds besides and at least these rules, and leaves the records
settled. -/
def Walks (grammar : Grammar) (caret : Caret) (opened : Set (Rule × Nat)) (fails : Obstacle → Prop)
    (action : WalkM (List Nat)) (arrives : Nat → Prop) (asked : Set Kind) (told : Set Rule) :
    Prop :=
  ∀ state, Settled grammar caret opened state →
    match action state with
    | .error obstacle => fails obstacle
    | .ok (reached, after) =>
      Lists reached arrives ∧ Settled grammar caret opened after ∧
        after.reported = state.reported ∪ asked ∧ state.told ∪ told ⊆ after.told

variable {opened : Set (Rule × Nat)} {fails : Obstacle → Prop} {arrives onward : Nat → Prop}
  {asked more : Set Kind} {told further : Set Rule}

/-- Records stay settled while more is reported. -/
theorem settled_mono {state other : WalkState} (settled : Settled grammar caret opened state)
    (same : other.recorded = state.recorded) (grows : state.reported ⊆ other.reported)
    (gains : state.told ⊆ other.told) :
    Settled grammar caret opened other := by
  intro rule position ends present
  rw [same] at present
  exact (settled rule position ends present).imp_right fun done =>
    ⟨done.1, done.2.1.trans grows, done.2.2.trans gains⟩

theorem walks_pure {reached : List Nat} (lists : Lists reached arrives) :
    Walks grammar caret opened fails (pure reached) arrives ∅ ∅ :=
  fun state settled => ⟨lists, settled, by rw [Set.union_empty], by rw [Set.union_empty]⟩

theorem walks_congr {action : WalkM (List Nat)}
    (walks : Walks grammar caret opened fails action arrives asked told)
    (ends : ∀ position, arrives position ↔ onward position)
    (same : ∀ kind, kind ∈ asked ↔ kind ∈ more) (fewer : ∀ rule, rule ∈ further → rule ∈ told) :
    Walks grammar caret opened fails action onward more further := by
  cases Set.ext same
  obtain rfl : arrives = onward := funext fun position => propext (ends position)
  intro state settled
  have ran := walks state settled
  split at ran
  · exact ran
  · exact ⟨ran.1, ran.2.1, ran.2.2.1,
      (Set.union_subset_union_right _ fewer).trans ran.2.2.2⟩

theorem walks_weaken {action : WalkM (List Nat)} {allowed : Obstacle → Prop}
    (wider : ∀ obstacle, fails obstacle → allowed obstacle)
    (walks : Walks grammar caret opened fails action arrives asked told) :
    Walks grammar caret opened allowed action arrives asked told := by
  intro state settled
  have ran := walks state settled
  cases result : action state with
  | error obstacle => exact wider obstacle (by simpa only [result] using ran)
  | ok outcome => simpa only [result] using ran

theorem walks_bind {action : WalkM (List Nat)} (next : List Nat → WalkM (List Nat))
    (first : Walks grammar caret opened fails action arrives asked told)
    (second : ∀ reached, Lists reached arrives →
      Walks grammar caret opened fails (next reached) onward more further) :
    Walks grammar caret opened fails (action >>= next) onward (asked ∪ more) (told ∪ further) := by
  intro state settled
  have one := first state settled
  simp only [bind, StateT.bind, Except.bind]
  cases ran : action state with
  | error obstacle => simpa only [ran] using one
  | ok outcome =>
    obtain ⟨reached, after⟩ := outcome
    simp only [ran] at one
    obtain ⟨lists, kept, reported, gained⟩ := one
    have two := second reached lists after kept
    rw [reported, Set.union_assoc] at two
    split at two
    · rename_i failed
      simpa only [failed] using two
    · rename_i passed
      simp only [passed]
      refine ⟨two.1, two.2.1, two.2.2.1, ?_⟩
      rw [← Set.union_assoc]
      exact (Set.union_subset_union_left _ gained).trans two.2.2.2

/-- An action whose places are only handed on. -/
theorem walks_map {action : WalkM (List Nat)} (f : List Nat → List Nat)
    (walks : Walks grammar caret opened fails action arrives asked told)
    (lists : ∀ reached, Lists reached arrives → Lists (f reached) onward) :
    Walks grammar caret opened fails (action >>= fun reached => pure (f reached)) onward asked
      told := by
  have both := walks_bind _ walks fun reached here => walks_pure (lists reached here)
  rwa [Set.union_empty, Set.union_empty] at both

variable {step : Nat → WalkM (List Nat)} {leads : Nat → Nat → Prop} {asking : Nat → Set Kind}
  {telling : Nat → Set Rule}

private theorem walks_foldlM (positions : List Nat)
    (each : ∀ position ∈ positions, Walks grammar caret opened fails (step position)
      (leads position) (asking position) (telling position))
    {found : List Nat} (lists : Lists found arrives) :
    Walks grammar caret opened fails
      (positions.foldlM (fun found position => do return union found (← step position)) found)
      (fun stop => arrives stop ∨ ∃ position ∈ positions, leads position stop)
      {kind | ∃ position ∈ positions, kind ∈ asking position}
      {rule | ∃ position ∈ positions, rule ∈ telling position} := by
  induction positions generalizing found arrives with
  | nil => exact walks_congr (walks_pure lists) (by simp) (by simp) (by simp)
  | cons position rest ih =>
    have here := walks_map (union found) (each position (by simp)) fun reached next =>
      lists_union lists next
    rw [List.foldlM_cons]
    refine walks_congr (walks_bind _ here fun reached next =>
      ih (fun other inside => each other (List.mem_cons_of_mem _ inside)) next)
      (fun stop => ?_) (fun kind => ?_) (fun rule => ?_)
    · simp only [List.mem_cons, exists_eq_or_imp, or_assoc]
    · simp
    · simp

/-- A step from each of several positions arrives wherever one of the steps does. -/
theorem walks_each (positions : List Nat)
    (each : ∀ position ∈ positions, Walks grammar caret opened fails (step position)
      (leads position) (asking position) (telling position)) :
    Walks grammar caret opened fails
      (positions.foldlM (fun found position => do return union found (← step position)) [])
      (fun stop => ∃ position ∈ positions, leads position stop)
      {kind | ∃ position ∈ positions, kind ∈ asking position}
      {rule | ∃ position ∈ positions, rule ∈ telling position} := by
  have begun : Lists [] fun _ => False := lists_nil fun _ => not_false
  exact walks_congr (walks_foldlM positions each begun) (fun stop => by simp) (fun kind => Iff.rfl)
    fun _ inside => inside

/-- The positions that a repetition has found and those of them from which it has not stepped yet.
From all others it has arrived nowhere new. -/
private structure Advancing (leads : Nat → Nat → Prop) (first : Nat) (known front : Nat → Prop) :
    Prop where
  begun : known first
  sound : ∀ position, known position → ReflTransGen leads first position
  ahead : ∀ position, front position → known position
  closed : ∀ position, known position → ¬ front position → ∀ stop, leads position stop → known stop

variable {first last : Nat} {known front found : Nat → Prop}

/-- A round moves the front to the positions that it finds. -/
private theorem advancing_step (advancing : Advancing leads first known front)
    (finds : ∀ stop, found stop ↔ ∃ position, front position ∧ leads position stop) :
    Advancing leads first (fun stop => known stop ∨ (found stop ∧ ¬ known stop))
      fun stop => found stop ∧ ¬ known stop where
  begun := .inl advancing.begun
  sound position inside := by
    rcases inside with early | ⟨late, -⟩
    · exact advancing.sound position early
    · obtain ⟨origin, inFront, leading⟩ := (finds position).mp late
      exact (advancing.sound origin (advancing.ahead origin inFront)).tail leading
  ahead position inside := .inr inside
  closed position inside behind stop leading := by
    have early : known position := inside.resolve_right behind
    by_cases inFront : front position
    · by_cases old : known stop
      · exact .inl old
      · exact .inr ⟨(finds stop).mpr ⟨position, inFront, leading⟩, old⟩
    · exact .inl (advancing.closed position early inFront stop leading)

/-- What is left to report before a round is reported in the round or left to report after it. -/
private theorem pending_step {Remark : Type} {noting : Nat → Set Remark}
    (advancing : Advancing leads first known front) (found : Nat → Prop) (remark : Remark) :
    ((∃ position, front position ∧ remark ∈ noting position) ∨
      ∃ position, ReflTransGen leads first position ∧
        (known position ∨ (found position ∧ ¬ known position) → found position ∧ ¬ known position) ∧
          remark ∈ noting position) ↔
      ∃ position, ReflTransGen leads first position ∧ (known position → front position) ∧
        remark ∈ noting position := by
  constructor
  · rintro (⟨position, inFront, inside⟩ | ⟨position, reachable, pending, inside⟩)
    · have reachable := advancing.sound position (advancing.ahead position inFront)
      exact ⟨position, reachable, fun _ => inFront, inside⟩
    · exact ⟨position, reachable, fun old => absurd old (pending (.inl old)).2, inside⟩
  · rintro ⟨position, reachable, pending, inside⟩
    by_cases old : known position
    · exact .inl ⟨position, pending old, inside⟩
    · exact .inr ⟨position, reachable, fun later => later.resolve_left old, inside⟩

/-- Without a position left to step from, every position has been found. -/
private theorem walks_of_no_front {reached : List Nat}
    (advancing : Advancing leads first known front) (lists : Lists reached known)
    (none : Lists [] front) :
    Walks grammar caret opened fails (pure reached) (ReflTransGen leads first)
      {kind | ∃ position, ReflTransGen leads first position ∧ (known position → front position) ∧
        kind ∈ asking position}
      {rule | ∃ position, ReflTransGen leads first position ∧ (known position → front position) ∧
        rule ∈ telling position} := by
  have behind (position) : ¬ front position := by
    rw [← none.mem_iff]
    exact List.not_mem_nil
  have whole (position) (reachable : ReflTransGen leads first position) : known position := by
    induction reachable with
    | refl => exact advancing.begun
    | tail _ leading ih => exact advancing.closed _ ih (behind _) _ leading
  refine walks_congr (walks_pure
    (lists_congr lists fun position => ⟨advancing.sound position, whole position⟩))
    (fun _ => Iff.rfl) (fun kind => ⟨False.elim, ?_⟩) fun rule => ?_
  all_goals
    rintro ⟨position, reachable, pending, -⟩
    exact behind position (pending (whole position reachable))

private theorem reachAll_advances
    (within : ∀ position, ReflTransGen leads first position → first ≤ position ∧ position ≤ last)
    (each : ∀ position, ReflTransGen leads first position → Walks grammar caret opened fails
      (step position) (leads position) (asking position) (telling position))
    (rounds : Nat) {reached frontier : List Nat} {known front : Nat → Prop}
    (listsKnown : Lists reached known) (listsFront : Lists frontier front)
    (advancing : Advancing leads first known front)
    (enough : frontier ≠ [] → (unseen first last reached.contains).card < rounds) :
    Walks grammar caret opened fails (reachAll step rounds reached frontier)
      (ReflTransGen leads first)
      {kind | ∃ position, ReflTransGen leads first position ∧ (known position → front position) ∧
        kind ∈ asking position}
      {rule | ∃ position, ReflTransGen leads first position ∧ (known position → front position) ∧
        rule ∈ telling position} := by
  -- every round that finds something leaves fewer positions to find
  induction rounds generalizing reached frontier known front with
  | zero =>
    cases frontier with
    | nil => exact walks_of_no_front advancing listsKnown listsFront
    | cons => exact absurd (enough (by simp)) (Nat.not_lt_zero _)
  | succ rounds ih =>
    cases frontier with
    | nil => exact walks_of_no_front advancing listsKnown listsFront
    | cons position others =>
      obtain ⟨arrived, finds⟩ : ∃ arrived : Nat → Prop,
          ∀ stop, arrived stop ↔ ∃ place, front place ∧ leads place stop := ⟨_, fun _ => Iff.rfl⟩
      have round : Walks grammar caret opened fails
          ((position :: others).foldlM (fun found place => do return union found (← step place)) [])
          arrived
          {kind | ∃ place, front place ∧ kind ∈ asking place}
          {rule | ∃ place, front place ∧ rule ∈ telling place} := by
        have steps (place) (inside : place ∈ position :: others) :=
          have inFront := (listsFront.mem_iff place).mp inside
          each place (advancing.sound place (advancing.ahead place inFront))
        refine walks_congr (walks_each (position :: others) steps) (fun stop => ?_) (fun kind => ?_)
          (fun rule => ?_)
        · simp only [finds, listsFront.mem_iff]
        · simp only [listsFront.mem_iff, Set.mem_ofPred_eq]
        · simp only [listsFront.mem_iff, Set.mem_ofPred_eq, imp_self]
      have next := advancing_step advancing finds
      refine walks_congr (walks_bind _ round fun found listsFound => ?_) (fun _ => Iff.rfl)
        (pending_step advancing arrived) fun rule => (pending_step advancing arrived rule).mpr
      have fresh : Lists (found.filter fun place => !reached.contains place)
          fun stop => arrived stop ∧ ¬ known stop :=
        lists_congr (lists_filter listsFound _) fun stop => by simp [← listsKnown.mem_iff]
      have united := lists_union listsKnown fresh
      refine ih united fresh next fun some => ?_
      obtain ⟨place, member⟩ := List.exists_mem_of_ne_nil _ some
      have new := (fresh.mem_iff place).mp member
      have range := within place (next.sound place (.inr new))
      have fewer : (unseen first last
        (union reached (found.filter fun place => !reached.contains place)).contains).card <
          (unseen first last reached.contains).card := by
        refine unseen_lt (fun place early => ?_) range.1 range.2 ?_ ?_
        · simp only [List.contains_iff_mem] at early ⊢
          exact (united.mem_iff place).mpr (.inl ((listsKnown.mem_iff place).mp early))
        · simpa using (united.mem_iff place).mpr (.inr new)
        · simpa [listsKnown.mem_iff] using new.2
      have bound := enough (by simp)
      omega

/-- Given a round for each position in range, a repetition arrives at every position that its steps
lead to, and reports all that is asked for on the way. -/
theorem walks_reachAll
    (within : ∀ position, ReflTransGen leads first position → first ≤ position ∧ position ≤ last)
    (each : ∀ position, ReflTransGen leads first position → Walks grammar caret opened fails
      (step position) (leads position) (asking position) (telling position))
    (rounds : Nat) (enough : last - first < rounds) :
    Walks grammar caret opened fails (reachAll step rounds [first] [first])
      (ReflTransGen leads first)
      {kind | ∃ position, ReflTransGen leads first position ∧ kind ∈ asking position}
      {rule | ∃ position, ReflTransGen leads first position ∧ rule ∈ telling position} := by
  have only : Lists [first] fun place => place = first := lists_singleton fun _ => Iff.rfl
  have advancing : Advancing leads first (fun place => place = first) fun place => place = first :=
    ⟨rfl, fun _ same => same ▸ .refl, fun _ same => same, fun _ same behind => absurd same behind⟩
  have range := unseen_card_le first last fun _ => false
  have fewer : (unseen first last [first].contains).card <
      (unseen first last fun _ => false).card :=
    unseen_lt (fun _ => nofun) (Nat.le_refl first) (within first .refl).2 (by simp) rfl
  refine walks_congr (reachAll_advances within each rounds only only advancing fun _ => by omega)
    (fun _ => Iff.rfl) (fun kind => ?_) fun rule => ?_
  · simp
  · simp

end CypherAssist.Grammar
