import CypherAssist.Grammar.Parser
import Mathlib.Data.Finset.Card
import Mathlib.Order.Interval.Finset.Nat

/-! What the loops of the parser compute when their step is a mere function: the ends they reach
and the outcomes they keep. A repetition steps once from every position that it reaches, since each
round that finds a position leaves fewer to be found. -/
namespace CypherAssist.Grammar

/-- The positions of a range that have not been seen yet. -/
def unseen (first last : Nat) (seen : Nat → Bool) : Finset Nat :=
  (Finset.Icc first last).filter fun position => seen position = false

theorem unseen_card_le (first last : Nat) (seen : Nat → Bool) :
    (unseen first last seen).card ≤ last + 1 - first :=
  (Finset.card_filter_le _ _).trans (Nat.card_Icc first last).le

/-- Seeing one more position of the range leaves fewer to see. -/
theorem unseen_lt {first last position : Nat} {seen grown : Nat → Bool}
    (keeps : ∀ place, seen place → grown place) (low : first ≤ position) (high : position ≤ last)
    (found : grown position) (new : seen position = false) :
    (unseen first last grown).card < (unseen first last seen).card := by
  apply Finset.card_lt_card
  refine Finset.ssubset_iff_subset_ne.mpr ⟨fun place member => ?_, fun same => ?_⟩
  · simp only [unseen, Finset.mem_filter] at member ⊢
    refine ⟨member.1, ?_⟩
    by_contra early
    rw [Bool.not_eq_false] at early
    rw [keeps place early] at member
    cases member.2
  · have lost : position ∈ unseen first last seen := by
      simp only [unseen, Finset.mem_filter, Finset.mem_Icc]
      exact ⟨⟨low, high⟩, new⟩
    rw [← same] at lost
    simp only [unseen, Finset.mem_filter] at lost
    rw [found] at lost
    cases lost.2

namespace Outcomes
variable {α β : Type}

theorem reaches_iff {outcomes : Outcomes α} {reach : Reach} :
    outcomes.reaches reach ↔ ∃ found, (reach, found) ∈ outcomes := by
  simp only [reaches, List.any_eq_true, decide_eq_true_eq, Prod.exists]
  constructor
  · rintro ⟨_, found, member, rfl⟩
    exact ⟨found, member⟩
  · rintro ⟨found, member⟩
    exact ⟨reach, found, member, rfl⟩

@[simp] theorem reaches_nil {reach : Reach} : reaches ([] : Outcomes α) reach = false := rfl

@[simp] theorem reaches_singleton {outcome : Reach × α} {reach : Reach} :
    reaches [outcome] reach = decide (outcome.1 = reach) := by
  simp [reaches]

/-- What has only begun reaches the place where it began. -/
theorem reaches_upTo_singleton {position stop : Nat} {value : α}
    (reached : reaches [(.upTo position, value)] (.upTo stop)) : position = stop := by
  simpa using reached

theorem reaches_map {outcomes : Outcomes α} {reach : Reach} (f : Reach × α → β) :
    reaches (outcomes.map fun outcome => (outcome.1, f outcome)) reach =
      outcomes.reaches reach := by
  simp [reaches, List.any_map, Function.comp_def]

theorem mem_of_at? {outcomes : Outcomes α} {reach : Reach} {found : α}
    (kept : outcomes.at? reach = some found) :
    (reach, found) ∈ outcomes := by
  simp only [at?, Option.map_eq_some_iff] at kept
  obtain ⟨⟨place, derivation⟩, first, rfl⟩ := kept
  have same := List.find?_some first
  simp only [decide_eq_true_eq] at same
  exact same ▸ List.mem_of_find?_eq_some first

theorem at?_eq_none_iff {outcomes : Outcomes α} {reach : Reach} :
    outcomes.at? reach = none ↔ ¬ outcomes.reaches reach := by
  simp only [at?, reaches, Option.map_eq_none_iff, List.find?_eq_none, List.any_eq_true, not_exists,
    not_and]

theorem mem_of_mem_merge {earlier later : Outcomes α} {outcome : Reach × α}
    (member : outcome ∈ earlier.merge later) : outcome ∈ earlier ∨ outcome ∈ later := by
  simp only [merge, List.mem_append, List.mem_filter] at member
  exact member.imp_right And.left

/-- What is added behind a merge is apart from what was known before it too. -/
theorem exists_more_of_merge {known added grown : Outcomes α}
    (later : ∃ more, grown = known.merge added ++ more ∧
      ∀ outcome ∈ more, (known.merge added).reaches outcome.1 = false) :
    ∃ more, grown = known ++ more ∧ ∀ outcome ∈ more, known.reaches outcome.1 = false := by
  obtain ⟨more, rfl, new⟩ := later
  refine ⟨_, List.append_assoc .., fun outcome member => ?_⟩
  rcases List.mem_append.mp member with here | later
  · simpa using (List.mem_filter.mp here).2
  · have unseen := new outcome later
    rw [reaches_merge, Bool.or_eq_false_iff] at unseen
    exact unseen.1

/-- Merging many outcomes into those known adds only ends not known before. -/
theorem foldl_merge_append (f : β → Outcomes α) (items : List β) (known : Outcomes α) :
    ∃ more, items.foldl (fun grown item => grown.merge (f item)) known = known ++ more ∧
      ∀ outcome ∈ more, known.reaches outcome.1 = false := by
  induction items generalizing known with
  | nil => exact ⟨[], by simp, by simp⟩
  | cons item rest ih => exact exists_more_of_merge (ih (known.merge (f item)))

theorem mem_of_mem_foldl_merge {f : β → Outcomes α} {items : List β} {known : Outcomes α}
    {outcome : Reach × α}
    (member : outcome ∈ items.foldl (fun grown item => grown.merge (f item)) known) :
    outcome ∈ known ∨ ∃ item ∈ items, outcome ∈ f item := by
  induction items generalizing known with
  | nil => exact .inl member
  | cons item rest ih =>
    rcases ih member with member | ⟨later, inside, member⟩
    · rcases mem_of_mem_merge member with member | member
      · exact .inl member
      · exact .inr ⟨item, by simp, member⟩
    · exact .inr ⟨later, List.mem_cons_of_mem _ inside, member⟩

theorem reaches_foldl_merge {f : β → Outcomes α} {items : List β} {known : Outcomes α}
    {reach : Reach} :
    (items.foldl (fun grown item => grown.merge (f item)) known).reaches reach ↔
      known.reaches reach ∨ ∃ item ∈ items, (f item).reaches reach := by
  induction items generalizing known with
  | nil => simp
  | cons item rest ih =>
    rw [List.foldl_cons, ih, reaches_merge, Bool.or_eq_true]
    simp only [List.mem_cons, exists_eq_or_imp, or_assoc]

end Outcomes

namespace Parts
open Outcomes

theorem mem_behind {children : List Derivation} {more : Parts} {reach : Reach}
    {all : List Derivation} :
    (reach, all) ∈ behind children more ↔
      ∃ added, (reach, added) ∈ more ∧ all = children ++ added := by
  simp only [behind, List.mem_map, Prod.mk.injEq, Prod.exists]
  constructor
  · rintro ⟨_, added, member, rfl, rfl⟩
    exact ⟨added, member, rfl⟩
  · rintro ⟨added, member, rfl⟩
    exact ⟨reach, added, member, rfl, rfl⟩

@[simp] theorem reaches_behind {children : List Derivation} {more : Parts} {reach : Reach} :
    (behind children more).reaches reach = more.reaches reach :=
  reaches_map _

/-! ## One step behind every outcome -/

/-- An outcome and what a step adds to it. -/
def continued (step : Nat → Parts) (outcome : Reach × List Derivation) : Parts :=
  match outcome.1 with
  | .cut => [outcome]
  | .upTo position => behind outcome.2 (step position)

/-- The outcome of `extend` for a step without effects. -/
def extended (step : Nat → Parts) (current : Parts) : Parts :=
  current.foldl (fun following outcome => following.merge (continued step outcome)) []

variable {step : Nat → Parts} {current known : Parts} {frontier : List (Nat × List Derivation)}

theorem mem_extended {reach : Reach} {all : List Derivation}
    (member : (reach, all) ∈ extended step current) :
    (reach = .cut ∧ (.cut, all) ∈ current) ∨ ∃ position children added,
      (.upTo position, children) ∈ current ∧ (reach, added) ∈ step position ∧
        all = children ++ added := by
  rcases mem_of_mem_foldl_merge member with impossible | ⟨⟨earlier, children⟩, inside, member⟩
  · simp at impossible
  · cases earlier with
    | cut =>
      simp only [continued, List.mem_singleton, Prod.mk.injEq] at member
      obtain ⟨rfl, rfl⟩ := member
      exact .inl ⟨rfl, inside⟩
    | upTo position =>
      obtain ⟨added, stepped, same⟩ := mem_behind.mp member
      exact .inr ⟨position, children, added, inside, stepped, same⟩

theorem reaches_extended {reach : Reach} :
    (extended step current).reaches reach ↔
      (reach = .cut ∧ current.reaches .cut) ∨
        ∃ position, current.reaches (.upTo position) ∧ (step position).reaches reach := by
  rw [extended, reaches_foldl_merge]
  simp only [reaches_nil, Bool.false_eq_true, false_or]
  constructor
  · rintro ⟨⟨earlier, children⟩, inside, reached⟩
    cases earlier with
    | cut =>
      simp only [continued, reaches_singleton, decide_eq_true_eq] at reached
      exact .inl ⟨reached.symm, reaches_iff.mpr ⟨children, inside⟩⟩
    | upTo position =>
      simp only [continued, reaches_behind] at reached
      exact .inr ⟨position, reaches_iff.mpr ⟨children, inside⟩, reached⟩
  · rintro (⟨rfl, cut⟩ | ⟨position, earlier, reached⟩)
    · obtain ⟨children, inside⟩ := reaches_iff.mp cut
      exact ⟨(.cut, children), inside, by simp [continued]⟩
    · obtain ⟨children, inside⟩ := reaches_iff.mp earlier
      exact ⟨(.upTo position, children), inside, by simpa [continued] using reached⟩

theorem extended_congr {other : Nat → Parts}
    (same : ∀ position, current.reaches (.upTo position) → step position = other position) :
    extended step current = extended other current := by
  refine List.foldl_ext _ _ _ fun following outcome inside => ?_
  obtain ⟨reach, children⟩ := outcome
  cases reach with
  | cut => rfl
  | upTo position => simp only [continued, same position (reaches_iff.mpr ⟨children, inside⟩)]

/-! ## Repetition -/

/-- One round of a repetition: a step from every position of the frontier. -/
def gathered (step : Nat → Parts) (known : Parts) (frontier : List (Nat × List Derivation)) :
    Parts :=
  frontier.foldl (fun grown outcome => grown.merge (behind outcome.2 (step outcome.1))) known

/-- The positions that a round has found. -/
def fresh (known grown : Parts) : List (Nat × List Derivation) :=
  (grown.drop known.length).filterMap continuing?

/-- The outcome of `iterate` for a step without effects. -/
def iterated (step : Nat → Parts) : Nat → Parts → List (Nat × List Derivation) → Parts
  | 0, known, _ => known
  | rounds + 1, known, frontier =>
    match frontier with
    | [] => known
    | _ :: _ =>
      let grown := gathered step known frontier
      iterated step rounds grown (fresh known grown)

/-- The positions from which a repetition steps, round by round. -/
def visited (step : Nat → Parts) : Nat → Parts → List (Nat × List Derivation) → List Nat
  | 0, _, _ => []
  | rounds + 1, known, frontier =>
    match frontier with
    | [] => []
    | _ :: _ =>
      let grown := gathered step known frontier
      frontier.map (·.1) ++ visited step rounds grown (fresh known grown)

theorem reaches_gathered {reach : Reach} :
    (gathered step known frontier).reaches reach ↔
      known.reaches reach ∨ ∃ position ∈ frontier.map (·.1), (step position).reaches reach := by
  rw [gathered, reaches_foldl_merge]
  simp only [reaches_behind, List.mem_map, exists_exists_and_eq_and]

theorem mem_fresh_gathered {position : Nat} {children : List Derivation}
    (member : (position, children) ∈ fresh known (gathered step known frontier)) :
    (.upTo position, children) ∈ gathered step known frontier ∧
      known.reaches (.upTo position) = false := by
  obtain ⟨more, same, new⟩ := foldl_merge_append
    (fun outcome => behind outcome.2 (step outcome.1)) frontier known
  rw [← gathered] at same
  rw [fresh, same, List.drop_left] at member
  obtain ⟨⟨reach, kept⟩, inside, found⟩ := List.mem_filterMap.mp member
  cases reach with
  | cut => simp [continuing?] at found
  | upTo place =>
    simp only [continuing?, Option.some.injEq, Prod.mk.injEq] at found
    obtain ⟨rfl, rfl⟩ := found
    exact ⟨same ▸ List.mem_append_right _ inside, new _ inside⟩

/-- A position reached for the first time is in the next frontier. -/
theorem fresh_of_reaches {position : Nat}
    (reached : (gathered step known frontier).reaches (.upTo position))
    (new : known.reaches (.upTo position) = false) :
    position ∈ (fresh known (gathered step known frontier)).map (·.1) := by
  obtain ⟨more, same, -⟩ := foldl_merge_append
    (fun outcome => behind outcome.2 (step outcome.1)) frontier known
  rw [← gathered] at same
  obtain ⟨children, inside⟩ := reaches_iff.mp reached
  have later : (.upTo position, children) ∈ more := by
    rw [same] at inside
    rcases List.mem_append.mp inside with early | late
    · rw [reaches_iff.mpr ⟨children, early⟩] at new
      cases new
    · exact late
  rw [fresh, same, List.drop_left]
  exact List.mem_map.mpr ⟨(position, children), List.mem_filterMap.mpr ⟨_, later, rfl⟩, rfl⟩

/-- What holds of the outcomes known, and of each step behind one of them, holds of all outcomes of
a repetition. -/
theorem iterated_induct (holds : Reach → List Derivation → Prop)
    (steps : ∀ position children, holds (.upTo position) children → ∀ reach added,
      (reach, added) ∈ step position → holds reach (children ++ added))
    (rounds : Nat) (start : ∀ reach children, (reach, children) ∈ known → holds reach children)
    (front : ∀ position children, (position, children) ∈ frontier → holds (.upTo position) children)
    {reach : Reach} {all : List Derivation}
    (member : (reach, all) ∈ iterated step rounds known frontier) :
    holds reach all := by
  induction rounds generalizing known frontier with
  | zero => exact start _ _ member
  | succ rounds ih =>
    cases frontier with
    | nil => exact start _ _ member
    | cons outcome others =>
      have grown : ∀ reach children,
          (reach, children) ∈ gathered step known (outcome :: others) → holds reach children := by
        intro reach children inside
        rcases mem_of_mem_foldl_merge inside with early | ⟨⟨position, before⟩, inFront, late⟩
        · exact start _ _ early
        · obtain ⟨added, stepped, rfl⟩ := mem_behind.mp late
          exact steps _ _ (front _ _ inFront) _ _ stepped
      exact ih grown (fun _ _ inside => grown _ _ (mem_fresh_gathered inside).1) member

theorem reaches_iterated_of_reaches (rounds : Nat) {reach : Reach} (early : known.reaches reach) :
    (iterated step rounds known frontier).reaches reach := by
  induction rounds generalizing known frontier with
  | zero => exact early
  | succ rounds ih =>
    cases frontier with
    | nil => exact early
    | cons outcome others => exact ih (reaches_gathered.mpr (.inl early))

/-- Every position visited is one of those reached. -/
theorem reaches_of_visited (rounds : Nat)
    (front : ∀ position ∈ frontier.map (·.1), known.reaches (.upTo position)) {position : Nat}
    (member : position ∈ visited step rounds known frontier) :
    (iterated step rounds known frontier).reaches (.upTo position) := by
  induction rounds generalizing known frontier with
  | zero => cases member
  | succ rounds ih =>
    cases frontier with
    | nil => cases member
    | cons outcome others =>
      rcases List.mem_append.mp member with now | later
      · exact reaches_iterated_of_reaches rounds (reaches_gathered.mpr (.inl (front _ now)))
      · refine ih (fun place inside => ?_) later
        obtain ⟨⟨_, children⟩, inFresh, rfl⟩ := List.mem_map.mp inside
        exact reaches_iff.mpr ⟨children, (mem_fresh_gathered inFresh).1⟩

/-- What a step reaches from a position visited is among the outcomes. -/
theorem reaches_iterated_of_visited (rounds : Nat) {position : Nat} {reach : Reach}
    (member : position ∈ visited step rounds known frontier)
    (reached : (step position).reaches reach) :
    (iterated step rounds known frontier).reaches reach := by
  induction rounds generalizing known frontier with
  | zero => cases member
  | succ rounds ih =>
    cases frontier with
    | nil => cases member
    | cons outcome others =>
      rcases List.mem_append.mp member with now | later
      · exact reaches_iterated_of_reaches rounds
          (reaches_gathered.mpr (.inr ⟨position, now, reached⟩))
      · exact ih later

/-- Only the steps taken matter. -/
theorem iterated_congr {other : Nat → Parts} (rounds : Nat)
    (same : ∀ position ∈ visited step rounds known frontier, step position = other position) :
    iterated step rounds known frontier = iterated other rounds known frontier := by
  induction rounds generalizing known frontier with
  | zero => rfl
  | succ rounds ih =>
    cases frontier with
    | nil => rfl
    | cons outcome others =>
      have round : gathered step known (outcome :: others) =
          gathered other known (outcome :: others) := by
        refine List.foldl_ext _ _ _ fun grown item inside => ?_
        rw [same item.1 (List.mem_append_left _ (List.mem_map.mpr ⟨item, inside, rfl⟩))]
      simp only [iterated, ← round]
      exact ih fun position later => same position (List.mem_append_right _ later)

/-- The positions of a range that no outcome reaches yet. -/
def missing (first last : Nat) (known : Parts) : Finset Nat :=
  unseen first last fun position => known.reaches (.upTo position)

/-- Outcomes that add a position of the range leave fewer to find. -/
theorem missing_lt {first last position : Nat} {grown : Parts}
    (keeps : ∀ place, known.reaches (.upTo place) → grown.reaches (.upTo place))
    (low : first ≤ position) (high : position ≤ last) (reached : grown.reaches (.upTo position))
    (new : known.reaches (.upTo position) = false) :
    (missing first last grown).card < (missing first last known).card :=
  unseen_lt keeps low high reached new

/-- A round stays in the range, and leaves fewer positions missing if it finds one. -/
theorem gathered_progress {first last : Nat}
    (stays : ∀ position target, first ≤ position → position ≤ last →
      (step position).reaches (.upTo target) → first ≤ target ∧ target ≤ last)
    (front : ∀ position ∈ frontier.map (·.1), first ≤ position ∧ position ≤ last) :
    (∀ position ∈ (fresh known (gathered step known frontier)).map (·.1),
      first ≤ position ∧ position ≤ last) ∧
    (fresh known (gathered step known frontier) ≠ [] →
      (missing first last (gathered step known frontier)).card <
        (missing first last known).card) := by
  have found (position)
      (member : position ∈ (fresh known (gathered step known frontier)).map (·.1)) :
      (gathered step known frontier).reaches (.upTo position) ∧
        known.reaches (.upTo position) = false := by
    obtain ⟨⟨_, children⟩, inFresh, rfl⟩ := List.mem_map.mp member
    obtain ⟨found, new⟩ := mem_fresh_gathered inFresh
    exact ⟨reaches_iff.mpr ⟨children, found⟩, new⟩
  have inside (position)
      (member : position ∈ (fresh known (gathered step known frontier)).map (·.1)) :
      first ≤ position ∧ position ≤ last := by
    obtain ⟨reached, new⟩ := found position member
    rcases reaches_gathered.mp reached with early | ⟨origin, inFront, stepped⟩
    · rw [early] at new
      cases new
    · exact stays origin position (front origin inFront).1 (front origin inFront).2 stepped
  refine ⟨inside, fun some => ?_⟩
  obtain ⟨next, member⟩ := List.exists_mem_of_ne_nil _ some
  have listed : next.1 ∈ (fresh known (gathered step known frontier)).map (·.1) :=
    List.mem_map.mpr ⟨next, member, rfl⟩
  obtain ⟨reached, new⟩ := found next.1 listed
  obtain ⟨low, high⟩ := inside next.1 listed
  exact missing_lt (fun _ early => reaches_gathered.mpr (.inl early)) low high reached new

/-- With a round for each position of the range that is still missing, more rounds find no more. -/
theorem iterated_stable {first last : Nat}
    (stays : ∀ position target, first ≤ position → position ≤ last →
      (step position).reaches (.upTo target) → first ≤ target ∧ target ≤ last)
    (rounds : Nat) (enough : frontier ≠ [] → (missing first last known).card < rounds)
    (front : ∀ position ∈ frontier.map (·.1), first ≤ position ∧ position ≤ last) (more : Nat) :
    iterated step (more + rounds) known frontier = iterated step rounds known frontier := by
  induction rounds generalizing known frontier with
  | zero =>
    cases frontier with
    | nil => cases more <;> rfl
    | cons => exact absurd (enough (by simp)) (Nat.not_lt_zero _)
  | succ rounds ih =>
    cases frontier with
    | nil => rfl
    | cons outcome others =>
      obtain ⟨newFront, fewer⟩ := gathered_progress stays front
      rw [← Nat.add_assoc, iterated, iterated]
      refine ih (fun some => ?_) newFront
      have before := enough (by simp)
      have less := fewer some
      omega

/-- With a round for each position of the range that is still missing, a repetition visits every
position that it reaches, except those known already and not in the frontier. -/
theorem visited_of_reaches {first last : Nat}
    (stays : ∀ position target, first ≤ position → position ≤ last →
      (step position).reaches (.upTo target) → first ≤ target ∧ target ≤ last)
    (rounds : Nat) (enough : frontier ≠ [] → (missing first last known).card < rounds)
    (front : ∀ position ∈ frontier.map (·.1), first ≤ position ∧ position ≤ last)
    {position : Nat} (reached : (iterated step rounds known frontier).reaches (.upTo position)) :
    (known.reaches (.upTo position) ∧ position ∉ frontier.map (·.1)) ∨
      position ∈ visited step rounds known frontier := by
  induction rounds generalizing known frontier with
  | zero =>
    cases frontier with
    | nil => exact .inl ⟨reached, by simp⟩
    | cons outcome others => exact absurd (enough (by simp)) (Nat.not_lt_zero _)
  | succ rounds ih =>
    cases frontier with
    | nil => exact .inl ⟨reached, by simp⟩
    | cons outcome others =>
      obtain ⟨newFront, fewer⟩ := gathered_progress stays front
      have left (some : fresh known (gathered step known (outcome :: others)) ≠ []) :
          (missing first last (gathered step known (outcome :: others))).card < rounds := by
        have before := enough (by simp)
        have less := fewer some
        omega
      rcases ih left newFront reached with ⟨found, old⟩ | member
      · by_cases early : known.reaches (.upTo position) = true
        · by_cases now : position ∈ (outcome :: others).map (·.1)
          · exact .inr (List.mem_append_left _ now)
          · exact .inl ⟨early, now⟩
        · rw [Bool.not_eq_true] at early
          exact absurd (fresh_of_reaches found early) old
      · exact .inr (List.mem_append_right _ member)

end Parts

end CypherAssist.Grammar
