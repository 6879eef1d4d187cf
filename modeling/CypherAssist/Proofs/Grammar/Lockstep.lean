import CypherAssist.Proofs.Grammar.Backing
import CypherAssist.Proofs.Grammar.Statements
import CypherAssist.Proofs.Token.Relocation

/-! Two walks in step. A statement is walked alike wherever it stands: behind other tokens the walk
enters the same rules in the same order, arrives so many positions later, and finds the same
candidates, each with the place that it has there. -/
namespace CypherAssist.Grammar
open Token

/-! ## Candidates of a text that stands behind another -/

/-- The same candidate, so many tokens later in the stream. -/
def RuleCandidate.shift (first : Nat) (candidate : RuleCandidate) : RuleCandidate :=
  { candidate with start := first + candidate.start }

/-- The same candidates, so many tokens later in the stream. -/
def Candidates.shift (first : Nat) (candidates : Candidates) : Candidates :=
  { candidates with rules := candidates.rules.map (RuleCandidate.shift first) }

theorem shift_addRule (first : Nat) (candidates : Candidates) (candidate : RuleCandidate) :
    (candidates.addRule candidate).shift first =
      (candidates.shift first).addRule (candidate.shift first) := by
  have known : (candidates.shift first).rules.any (fun other => other.rule = candidate.rule) =
      candidates.rules.any fun other => other.rule = candidate.rule := List.any_map
  unfold Candidates.addRule
  rw [show (candidate.shift first).rule = candidate.rule from rfl, known]
  split
  · rfl
  · simp [Candidates.shift]

theorem shift_addToken (first : Nat) (candidates : Candidates) (candidate : TokenCandidate) :
    (candidates.addToken candidate).shift first = (candidates.shift first).addToken candidate := by
  unfold Candidates.addToken
  rw [show (candidates.shift first).tokens = candidates.tokens from rfl]
  split <;> rfl

/-- The caret of a text that stands behind other tokens. -/
def Caret.behind (caret : Caret) (front : List Token) (base : Cursor) (first : Nat) : Caret :=
  { caret with tokens := (front ++ caret.tokens.toList.map (Token.relocate base first)).toArray }

variable {caret : Caret} {front : List Token} {base : Cursor} {first : Nat} {stack : List Frame}

theorem position_behind (held : 0 < caret.tokens.size) :
    (caret.behind front base first).position = front.length + caret.position := by
  simp only [Caret.position, Caret.behind, List.size_toArray, List.length_append, List.length_map,
    Array.length_toList]
  omega

theorem getElem?_behind (position : Nat) :
    (caret.behind front base first).tokens[front.length + position]? =
      caret.tokens[position]?.map (Token.relocate base first) := by
  rw [Caret.behind, List.getElem?_toArray, List.getElem?_append_right (Nat.le_add_right ..),
    Nat.add_sub_cancel_left, List.getElem?_map, Array.getElem?_toList]

/-! ## Running in step -/

/-- Ascending positions that are not behind the caret. -/
structure Within (caret : Caret) (positions : List Nat) : Prop where
  ascending : positions.Pairwise (· < ·)
  le : ∀ position ∈ positions, position ≤ caret.position

/-- One walk stands behind so many tokens, the other over the rest alone: below the rule of a whole
document they have recorded the same ends and found the same candidates. -/
structure Paired (caret : Caret) (size first : Nat) (full part : WalkState) : Prop where
  recorded : ∀ (rule : Rule) (position : Nat), rule ≠ start →
    full.recorded[(rule, size + position)]? =
      (part.recorded[(rule, position)]?).map (·.map (size + ·))
  within : ∀ (rule : Rule) (position : Nat) ends, rule ≠ start →
    part.recorded[(rule, position)]? = some ends → Within caret ends
  candidates : full.candidates = part.candidates.shift first

/-- Where both actions get through, they arrive at the same places and leave the walks paired. -/
def Lockstep (caret : Caret) (size first : Nat) (full part : WalkM (List Nat)) : Prop :=
  ∀ state other, Paired caret size first state other → ∀ reached after found later,
    full state = .ok (reached, after) → part other = .ok (found, later) →
      reached = found.map (size + ·) ∧ Within caret found ∧ Paired caret size first after later

variable {size : Nat} {found known : List Nat}

theorem lockstep_pure (within : Within caret found) :
    Lockstep caret size first (pure (found.map (size + ·))) (pure found) := by
  intro state other paired reached after found later ran also
  cases ran
  cases also
  exact ⟨rfl, within, paired⟩

theorem lockstep_bind {full part : WalkM (List Nat)} {next onward : List Nat → WalkM (List Nat)}
    (one : Lockstep caret size first full part)
    (two : ∀ found, Within caret found →
      Lockstep caret size first (next (found.map (size + ·))) (onward found)) :
    Lockstep caret size first (full >>= next) (part >>= onward) := by
  intro state other paired reached after found later ran also
  obtain ⟨middle, behind, passed, ran⟩ := exists_of_bind_eq_ok ran
  obtain ⟨alone, behindAlone, passedAlone, also⟩ := exists_of_bind_eq_ok also
  obtain ⟨rfl, within, kept⟩ := one _ _ paired _ _ _ _ passed passedAlone
  exact two alone within _ _ kept _ _ _ _ ran also

/-! ## Positions -/

theorem within_nil : Within caret [] := ⟨.nil, List.forall_mem_nil _⟩

theorem within_singleton (inside : position ≤ caret.position) : Within caret [position] :=
  ⟨List.pairwise_singleton .., fun _ member => List.mem_singleton.mp member ▸ inside⟩

theorem within_union (one : Within caret known) (two : Within caret found) :
    Within caret (union known found) :=
  ⟨union_ascending one.ascending two.ascending, fun position member =>
    (mem_of_mem_union member).elim (one.le position) (two.le position)⟩

theorem within_filter (within : Within caret found) (keeps : Nat → Bool) :
    Within caret (found.filter keeps) :=
  ⟨within.ascending.filter _, fun position member =>
    within.le position (List.mem_filter.mp member).1⟩

theorem union_map (size : Nat) (known found : List Nat) :
    union (known.map (size + ·)) (found.map (size + ·)) = (union known found).map (size + ·) := by
  induction known generalizing found with
  | nil => rfl
  | cons least rest ih =>
    simp only [List.map_cons, union, List.takeWhile_map, List.dropWhile_map, List.map_append,
      Function.comp_def, Nat.add_lt_add_iff_left, Nat.add_le_add_iff_left, ih]

theorem lockstep_union {full part : WalkM (List Nat)} (within : Within caret known)
    (lockstep : Lockstep caret size first full part) :
    Lockstep caret size first
      (full >>= fun reached => pure (union (known.map (size + ·)) reached))
      (part >>= fun reached => pure (union known reached)) :=
  lockstep_bind lockstep fun found inside => by
    rw [union_map]
    exact lockstep_pure (within_union within inside)

variable {step other : Nat → WalkM (List Nat)}

theorem lockstep_each {positions : List Nat} (inside : Within caret positions)
    (each : ∀ position ≤ caret.position,
      Lockstep caret size first (step (size + position)) (other position))
    (within : Within caret known) :
    Lockstep caret size first
      ((positions.map (size + ·)).foldlM
        (fun found position => do return union found (← step position)) (known.map (size + ·)))
      (positions.foldlM
        (fun found position => do return union found (← other position)) known) := by
  obtain ⟨ascending, le⟩ := inside
  clear ascending
  induction positions generalizing known with
  | nil => exact lockstep_pure within
  | cons position rest ih =>
    rw [List.map_cons, List.foldlM_cons, List.foldlM_cons]
    exact lockstep_bind (lockstep_union within (each position (le position (by simp))))
      fun found here => ih here fun place member => le place (List.mem_cons_of_mem _ member)

/-- Behind a round that finds a position not reached before, fewer are left to reach. -/
theorem unseen_lt_of_fresh {reached : List Nat} (within : Within caret found)
    (member : position ∈ found.filter fun place => !reached.contains place) :
    (unseen 0 caret.position
      (union reached (found.filter fun place => !reached.contains place)).contains).card <
        (unseen 0 caret.position reached.contains).card := by
  have fresh := within_filter within fun place => !reached.contains place
  refine unseen_lt (fun place early => ?_) (Nat.zero_le _) (fresh.le position member) ?_ ?_
  · simp only [List.contains_iff_mem] at early ⊢
    exact (mem_union fresh.ascending).mpr (.inl early)
  · simpa using (mem_union fresh.ascending).mpr (.inr member)
  · simpa using (List.mem_filter.mp member).2

/-- With a round for each position that is left, both repetitions stop for want of new positions. -/
theorem lockstep_reachAll
    (each : ∀ position ≤ caret.position,
      Lockstep caret size first (step (size + position)) (other position))
    (rounds more : Nat) {reached frontier : List Nat} (known : Within caret reached)
    (ahead : Within caret frontier)
    (enough : frontier ≠ [] → (unseen 0 caret.position reached.contains).card < rounds) :
    Lockstep caret size first
      (reachAll step (more + rounds) (reached.map (size + ·)) (frontier.map (size + ·)))
      (reachAll other rounds reached frontier) := by
  induction rounds generalizing reached frontier with
  | zero =>
    cases frontier with
    | nil => cases more <;> exact lockstep_pure known
    | cons => exact absurd (enough (by simp)) (Nat.not_lt_zero _)
  | succ rounds ih =>
    cases frontier with
    | nil => exact lockstep_pure known
    | cons position others =>
      rw [← Nat.add_assoc, List.map_cons, reachAll, reachAll, ← List.map_cons]
      refine lockstep_bind (lockstep_each ahead each within_nil) fun found inside => ?_
      have new : (found.map (size + ·)).filter
          (fun place => !(reached.map (size + ·)).contains place) =
            (found.filter fun place => !reached.contains place).map (size + ·) := by
        simp [List.filter_map, Function.comp_def]
      have fresh := within_filter inside fun place => !reached.contains place
      simp only [new, union_map]
      refine ih (within_union known fresh) fresh fun some => ?_
      obtain ⟨place, member⟩ := List.exists_mem_of_ne_nil _ some
      have fewer := unseen_lt_of_fresh inside member
      have bound := enough (by simp)
      omega

/-! ## Reports -/

/-- Rules open in both walks; the preferred ones among them started at the same place. -/
abbrev StacksPaired (caret : Caret) (size : Nat) : List Frame → List Frame → Prop :=
  List.Forall₂ fun full part => full.rule = part.rule ∧
    (caret.prefers part.rule → full.start = size + part.start ∧ part.start ≤ caret.position)

variable {outer : List Frame} {state alone : WalkState}

theorem ruleAt_behind (held : 0 < caret.tokens.size) (rule : Rule)
    (inside : position ≤ caret.position)
    (frames : StacksPaired caret front.length outer stack) :
    (caret.behind front base first).ruleAt rule (front.length + position) outer =
      (caret.ruleAt rule position stack).shift first := by
  have present : position < caret.tokens.size := by
    rw [Caret.position] at inside
    omega
  have rules : outer.map (·.rule) = stack.map (·.rule) := by
    induction frames with
    | nil => rfl
    | cons same _ ih => rw [List.map_cons, List.map_cons, same.1, ih]
  simp only [Caret.ruleAt, RuleCandidate.shift, getElem?_behind, Array.getElem?_eq_getElem present,
    Option.map_some, Option.getD_some, index_relocate, List.map_reverse, rules]
  simp

theorem paired_addRule (paired : Paired caret size first state alone) (candidate : RuleCandidate) :
    Paired caret size first
      { state with candidates := state.candidates.addRule (candidate.shift first) }
      { alone with candidates := alone.candidates.addRule candidate } :=
  ⟨paired.recorded, paired.within, by rw [paired.candidates, shift_addRule]⟩

theorem paired_report (held : 0 < caret.tokens.size)
    (paired : Paired caret front.length first state alone) (kind : Kind)
    (frames : StacksPaired caret front.length outer stack) (follow : List Element) :
    Paired caret front.length first
      (state.report (caret.behind front base first) kind outer follow)
      (alone.report caret kind stack follow) := by
  have left : StacksPaired caret front.length
      (outer.dropWhile fun frame => !caret.prefers frame.rule)
      (stack.dropWhile fun frame => !caret.prefers frame.rule) := by
    induction frames with
    | nil => exact .nil
    | cons same others ih =>
      rw [List.dropWhile_cons, List.dropWhile_cons, same.1]
      split
      · exact ih
      · exact .cons same others
  have prefers : (caret.behind front base first).prefers = caret.prefers := rfl
  have ignored : (caret.behind front base first).ignored = caret.ignored := rfl
  unfold WalkState.report
  rw [prefers, ignored]
  rcases clear_or_split caret stack with
    ⟨none, -⟩ | ⟨inner, frame, below, -, -, preferred, split⟩
  · rw [none] at left ⊢
    rw [List.forall₂_nil_right_iff.mp left]
    simp only
    split
    · exact paired
    · exact ⟨paired.recorded, paired.within, by rw [paired.candidates, shift_addToken]⟩
  · rw [split] at left ⊢
    obtain ⟨frame', below', same, others, shape⟩ := List.forall₂_cons_right_iff.mp left
    obtain ⟨start, inside⟩ := same.2 preferred
    rw [shape]
    simp only [same.1, start, ruleAt_behind held _ inside others]
    exact paired_addRule paired _

/-! ## Elements -/

variable {descend onward : Rule → Nat → List Frame → WalkM (List Nat)}

private theorem walkInOrder_lockstep {items : List Element}
    (each : ∀ item ∈ items, ∀ position ≤ caret.position, ∀ follow,
      Lockstep caret front.length first
        (item.walk (caret.behind front base first) onward (front.length + position) outer follow)
        (item.walk caret descend position stack follow))
    {positions : List Nat} (inside : Within caret positions) (follow : List Element) :
    Lockstep caret front.length first
      (Element.walkInOrder (caret.behind front base first) onward items
        (positions.map (front.length + ·)) outer follow)
      (Element.walkInOrder caret descend items positions stack follow) := by
  induction items generalizing positions with
  | nil => exact lockstep_pure inside
  | cons item rest ih =>
    rw [Element.walkInOrder, Element.walkInOrder]
    exact lockstep_bind
      (lockstep_each inside (fun place within => each item (by simp) place within _) within_nil)
      fun found within => ih (fun other member => each other (List.mem_cons_of_mem _ member)) within

private theorem walkAny_lockstep {options : List Element} {position : Nat}
    (each : ∀ option ∈ options, Lockstep caret front.length first
      (option.walk (caret.behind front base first) onward (front.length + position) outer follow)
      (option.walk caret descend position stack follow)) (within : Within caret known) :
    Lockstep caret front.length first
      (Element.walkAny (caret.behind front base first) onward options (front.length + position)
        outer follow (known.map (front.length + ·)))
      (Element.walkAny caret descend options position stack follow known) := by
  induction options generalizing known with
  | nil => exact lockstep_pure within
  | cons option rest ih =>
    rw [Element.walkAny, Element.walkAny]
    refine lockstep_bind (each option (by simp)) fun found inside => ?_
    rw [union_map]
    exact ih (fun other member => each other (List.mem_cons_of_mem _ member))
      (within_union within inside)

/-- Inside a statement an element is walked in step, if the rules entered are. -/
theorem walk_lockstep (held : 0 < caret.tokens.size)
    (frames : StacksPaired caret front.length outer stack)
    (calls : ∀ rule position, rule ≠ start → position ≤ caret.position →
      Lockstep caret front.length first (onward rule (front.length + position) outer)
        (descend rule position stack)) (element : Element) (inner : Inner element)
    (position : Nat) (inside : position ≤ caret.position) (follow : List Element) :
    Lockstep caret front.length first
      (element.walk (caret.behind front base first) onward (front.length + position) outer follow)
      (element.walk caret descend position stack follow) := by
  induction element using Element.induction generalizing position follow with
  | token kind =>
    rw [Element.walk, Element.walk, position_behind held, getElem?_behind]
    by_cases here : position = caret.position
    · rw [if_pos here, if_pos (by rw [here])]
      intro state other paired reached after found later ran also
      cases ran
      cases also
      exact ⟨rfl, within_nil, paired_report held paired kind frames follow⟩
    · rw [if_neg here, if_neg (by omega), Option.map_map]
      have same : (caret.tokens[position]?.map ((·.kind) ∘ Token.relocate base first)) =
          caret.tokens[position]?.map (·.kind) := rfl
      rw [same]
      split
      · exact @lockstep_pure _ _ _ [position + 1] (within_singleton (by omega))
      · exact lockstep_pure within_nil
  | reference target => exact calls target position (inner_reference inner) inside
  | sequence items ih =>
    rw [Element.walk, Element.walk]
    exact walkInOrder_lockstep (fun item member place within =>
      ih item member (inner_sequence inner member) place within) (within_singleton inside) follow
  | choice options ih =>
    rw [Element.walk, Element.walk]
    exact walkAny_lockstep (fun option member =>
      ih option member (inner_choice inner member) position inside follow) within_nil
  | optional item ih =>
    rw [Element.walk, Element.walk]
    exact lockstep_union (within_singleton inside)
      (ih (inner_optional inner) position inside follow)
  | repeated item ih =>
    have rounds : (caret.behind front base first).tokens.size + 1 =
        front.length + (caret.tokens.size + 1) := by
      simp [Caret.behind, Nat.add_assoc]
    rw [Element.walk, Element.walk, rounds]
    refine lockstep_reachAll (fun place within => ?_) _ _ (within_singleton inside)
      (within_singleton inside) fun _ => ?_
    · exact ih (inner_repeated inner) place within _
    · have few := unseen_card_le 0 caret.position [position].contains
      have last : caret.position + 1 = caret.tokens.size := Nat.sub_add_cancel held
      omega

/-! ## Rules -/

theorem paired_record (paired : Paired caret size first state alone) (rule : Rule) (position : Nat)
    {ends : List Nat} (within : Within caret ends) :
    Paired caret size first (state.record rule (size + position) (ends.map (size + ·)))
      (alone.record rule position ends) where
  recorded other place below := by
    rw [WalkState.getElem?_record, WalkState.getElem?_record]
    by_cases same : (rule, position) = (other, place)
    · cases same
      simp
    · have apart : (rule, size + position) ≠ (other, size + place) := by
        intro equal
        simp only [Prod.mk.injEq, Nat.add_left_cancel_iff] at equal
        exact same (Prod.ext equal.1 equal.2)
      rw [if_neg same, if_neg apart]
      exact paired.recorded other place below
  within other place known below present := by
    rw [WalkState.getElem?_record] at present
    split at present
    · cases present
      exact within
    · exact paired.within other place known below present
  candidates := paired.candidates

/-- Inside a statement a rule is walked in step. -/
theorem walkRule_lockstep (held : 0 < caret.tokens.size) (depth : Nat) (rule : Rule)
    (below : rule ≠ start) (position : Nat) (inside : position ≤ caret.position)
    (frames : StacksPaired caret front.length outer stack) :
    Lockstep caret front.length first
      (walkRule cypher (caret.behind front base first) depth rule (front.length + position) outer)
      (walkRule cypher caret depth rule position stack) := by
  induction depth generalizing rule position outer stack with
  | zero =>
    intro state other paired reached after found later ran
    cases ran
  | succ depth ih =>
    intro state other paired reached after found later ran also
    have prefers : (caret.behind front base first).prefers = caret.prefers := rfl
    rw [walkRule_apply] at ran also
    rw [position_behind held, prefers] at ran
    by_cases reports : position = caret.position && caret.prefers rule
    · rw [if_pos reports] at also
      rw [if_pos (by simpa using reports), ruleAt_behind held rule inside frames] at ran
      cases ran
      cases also
      exact ⟨rfl, within_nil, paired_addRule paired _⟩
    · rw [if_neg reports] at also
      rw [if_neg (by simpa using reports), paired.recorded rule position below] at ran
      cases known : other.recorded[(rule, position)]? with
      | some ends =>
        simp only [known, Option.map_some] at ran also
        cases ran
        cases also
        exact ⟨rfl, paired.within rule position _ below known, paired⟩
      | none =>
        have defined : cypher rule = some (definition rule) := rfl
        simp only [known, Option.map_none, defined] at ran also
        obtain ⟨⟨ends, middle⟩, walked, same⟩ := exists_of_map_eq_ok ran
        obtain ⟨⟨endsAlone, middleAlone⟩, alone, sameAlone⟩ := exists_of_map_eq_ok also
        cases same
        cases sameAlone
        have opened := paired_record paired rule position within_nil
        have entered : StacksPaired caret front.length
            (⟨rule, front.length + position⟩ :: outer) (⟨rule, position⟩ :: stack) :=
          .cons ⟨rfl, fun _ => ⟨rfl, inside⟩⟩ frames
        obtain ⟨rfl, within, kept⟩ := walk_lockstep held entered
          (fun target place apart within => ih target apart place within entered)
          (definition rule) (inner_definition below) position inside []
          _ _ opened _ _ _ _ walked alone
        exact ⟨rfl, within, paired_record kept rule position within⟩

end CypherAssist.Grammar
