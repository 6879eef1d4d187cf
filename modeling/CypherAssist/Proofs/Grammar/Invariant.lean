import CypherAssist.Proofs.Grammar.Collect

/-! What holds throughout a walk. A walk changes its state in three ways only, so what reporting a
token, adding a rule and recording an end keep is kept by every walk. In particular no candidate is
ever taken back, and the first token that a walk reports stays the first one. -/
namespace CypherAssist.Grammar
open Token

variable {grammar : Grammar} {caret : Caret} {stack : List Frame} {follow : List Element}
  {holds : WalkState → Prop} {arrives onward : Nat → Prop}

/-- Run where something holds, the action leaves a state where it holds, and arrives at such places
only. -/
def Keeps (holds : WalkState → Prop) (action : WalkM (List Nat)) (arrives : Nat → Prop) : Prop :=
  ∀ state reached after, holds state → action state = .ok (reached, after) →
    holds after ∧ ∀ stop ∈ reached, arrives stop

/-! ## Actions -/

theorem keeps_pure {reached : List Nat} (inside : ∀ stop ∈ reached, arrives stop) :
    Keeps holds (pure reached) arrives := by
  intro state _ _ kept ran
  cases ran
  exact ⟨kept, inside⟩

theorem keeps_mono {action : WalkM (List Nat)} (keeps : Keeps holds action arrives)
    (wider : ∀ stop, arrives stop → onward stop) : Keeps holds action onward :=
  fun state reached after kept ran =>
    (keeps state reached after kept ran).imp_right fun inside stop member =>
      wider stop (inside stop member)

theorem keeps_bind {action : WalkM (List Nat)} {next : List Nat → WalkM (List Nat)}
    (before : Keeps holds action arrives)
    (behind : ∀ reached, (∀ stop ∈ reached, arrives stop) → Keeps holds (next reached) onward) :
    Keeps holds (action >>= next) onward := by
  intro state reached after kept ran
  obtain ⟨found, middle, passed, onward⟩ := exists_of_bind_eq_ok ran
  obtain ⟨later, inside⟩ := before state _ _ kept passed
  exact behind found inside _ _ _ later onward

theorem mem_of_mem_union {position : Nat} {one two : List Nat}
    (member : position ∈ union one two) : position ∈ one ∨ position ∈ two := by
  induction one generalizing two with
  | nil => exact .inr member
  | cons least rest ih =>
    rw [union, List.mem_append, List.mem_cons] at member
    rcases member with early | rfl | late
    · exact .inr ((List.takeWhile_sublist _).subset early)
    · exact .inl (List.mem_cons_self ..)
    · exact (ih late).imp (List.mem_cons_of_mem _) fun inside =>
        (List.dropWhile_sublist _).subset inside

/-- An action arrives where it did, and its places are joined with others. -/
theorem keeps_union {action : WalkM (List Nat)} {known : List Nat}
    (keeps : Keeps holds action arrives) (inside : ∀ stop ∈ known, arrives stop) :
    Keeps holds (action >>= fun reached => pure (union known reached)) arrives :=
  keeps_bind keeps fun _ here => keeps_pure fun stop member =>
    (mem_of_mem_union member).elim (inside stop) (here stop)

variable {step : Nat → WalkM (List Nat)}

theorem keeps_each (positions : List Nat)
    (each : ∀ position ∈ positions, Keeps holds (step position) arrives) {found : List Nat}
    (inside : ∀ stop ∈ found, arrives stop) :
    Keeps holds
      (positions.foldlM (fun found position => do return union found (← step position)) found)
      arrives := by
  induction positions generalizing found with
  | nil => exact keeps_pure inside
  | cons position rest ih =>
    rw [List.foldlM_cons]
    exact keeps_bind (keeps_union (each position (by simp)) inside) fun _ here =>
      ih (fun other member => each other (List.mem_cons_of_mem _ member)) here

theorem keeps_reachAll (each : ∀ position, arrives position → Keeps holds (step position) arrives)
    (rounds : Nat) {reached frontier : List Nat} (known : ∀ stop ∈ reached, arrives stop)
    (front : ∀ stop ∈ frontier, arrives stop) :
    Keeps holds (reachAll step rounds reached frontier) arrives := by
  induction rounds generalizing reached frontier with
  | zero => exact keeps_pure known
  | succ rounds ih =>
    cases frontier with
    | nil => exact keeps_pure known
    | cons position others =>
      refine keeps_bind (keeps_each _ (fun place member => each place (front place member))
        (List.forall_mem_nil _)) fun found here => ?_
      have fresh (stop) (member : stop ∈ found.filter fun place => !reached.contains place) :
          arrives stop := here stop (List.mem_filter.mp member).1
      exact ih (fun stop member => (mem_of_mem_union member).elim (known stop) (fresh stop)) fresh

/-! ## Rules -/

theorem keeps_zero : Keeps holds (walkRule grammar caret 0 rule position stack) arrives := by
  intro state reached after _ ran
  cases ran

/-- A rule is reported at the caret or recorded with its ends, which are those of its right-hand
side. -/
theorem keeps_rule {depth : Nat}
    (reports : ∀ state, holds state → position = caret.position → caret.prefers rule →
      holds { state with
        candidates := state.candidates.addRule (caret.ruleAt rule position stack) })
    (known : ∀ state ends, holds state → state.recorded[(rule, position)]? = some ends →
      ∀ stop ∈ ends, arrives stop)
    (record : ∀ state ends, holds state → (∀ stop ∈ ends, arrives stop) →
      holds (state.record rule position ends))
    (body : ∀ element, ¬ (position = caret.position && caret.prefers rule) →
      grammar rule = some element →
        Keeps holds (element.walk caret (walkRule grammar caret depth) position
          (⟨rule, position⟩ :: stack) []) arrives) :
    Keeps holds (walkRule grammar caret (depth + 1) rule position stack) arrives := by
  intro state reached after kept ran
  rw [walkRule_apply] at ran
  split at ran
  · rename_i here
    obtain ⟨here, preferred⟩ := by simpa using here
    cases ran
    exact ⟨reports state kept here preferred, List.forall_mem_nil _⟩
  · rename_i enters
    split at ran
    · rename_i ends found
      cases ran
      exact ⟨kept, known state reached kept found⟩
    · split at ran
      · cases ran
      · rename_i element defined
        obtain ⟨outcome, passed, same⟩ := exists_of_map_eq_ok ran
        cases same
        obtain ⟨later, inside⟩ :=
          body element enters defined _ _ _ (record state [] kept (List.forall_mem_nil _)) passed
        exact ⟨record _ _ later inside, inside⟩

/-! ## Invariants of all walks -/

/-- What the steps of a walk keep. -/
structure Stable (caret : Caret) (holds : WalkState → Prop) : Prop where
  report : ∀ state kind stack follow, holds state → holds (state.report caret kind stack follow)
  addRule : ∀ state candidate, holds state →
    holds { state with candidates := state.candidates.addRule candidate }
  record : ∀ state rule position ends, holds state → holds (state.record rule position ends)

/-- Wherever the action arrives, it leaves a state where the same holds. -/
abbrev Preserves (holds : WalkState → Prop) (action : WalkM (List Nat)) : Prop :=
  Keeps holds action fun _ => True

variable {descend : Rule → Nat → List Frame → WalkM (List Nat)}

private theorem walkInOrder_keeps {items : List Element}
    (each : ∀ item ∈ items, ∀ position follow, arrives position →
      Keeps holds (item.walk caret descend position stack follow) arrives)
    {positions : List Nat} (inside : ∀ position ∈ positions, arrives position)
    (follow : List Element) :
    Keeps holds (Element.walkInOrder caret descend items positions stack follow) arrives := by
  induction items generalizing positions with
  | nil => exact keeps_pure inside
  | cons item rest ih =>
    rw [Element.walkInOrder]
    exact keeps_bind
      (keeps_each _ (fun position member => each item (by simp) position _ (inside position member))
        (List.forall_mem_nil _))
      fun reached here => ih (fun other member => each other (List.mem_cons_of_mem _ member)) here

theorem walkAny_keeps {options : List Element}
    (each : ∀ option ∈ options,
      Keeps holds (option.walk caret descend position stack follow) arrives)
    {reached : List Nat} (inside : ∀ stop ∈ reached, arrives stop) :
    Keeps holds (Element.walkAny caret descend options position stack follow reached) arrives := by
  induction options generalizing reached with
  | nil => exact keeps_pure inside
  | cons option rest ih =>
    rw [Element.walkAny]
    refine keeps_bind (each option (by simp)) fun more here =>
      ih (fun other member => each other (List.mem_cons_of_mem _ member)) fun stop member => ?_
    exact (mem_of_mem_union member).elim (inside stop) (here stop)

/-- What the tokens and the rules of an element keep, the element keeps. -/
theorem walk_keeps (element : Element)
    (tokens : ∀ kind position follow, .token kind ∈ element.subelements → arrives position →
      Keeps holds ((Element.token kind).walk caret descend position stack follow) arrives)
    (calls : ∀ rule position, .reference rule ∈ element.subelements → arrives position →
      Keeps holds (descend rule position stack) arrives)
    (position : Nat) (follow : List Element) (inside : arrives position) :
    Keeps holds (element.walk caret descend position stack follow) arrives := by
  induction element using Element.induction generalizing position follow with
  | token kind => exact tokens kind position follow (Element.mem_subelements_self _) inside
  | reference target => exact calls target position (Element.mem_subelements_self _) inside
  | sequence items ih =>
    have among {item part : Element} (member : item ∈ items) (within : part ∈ item.subelements) :
        part ∈ (Element.sequence items).subelements :=
      List.mem_cons_of_mem _ (Element.mem_subelementsOfAll.mpr ⟨item, member, within⟩)
    rw [Element.walk]
    refine walkInOrder_keeps (fun item member place follow here => ?_)
      (fun place member => List.mem_singleton.mp member ▸ inside) follow
    exact ih item member
      (fun kind place follow within => tokens kind place follow (among member within))
      (fun rule place within => calls rule place (among member within)) place follow here
  | choice options ih =>
    have among {option part : Element} (member : option ∈ options)
        (within : part ∈ option.subelements) : part ∈ (Element.choice options).subelements :=
      List.mem_cons_of_mem _ (Element.mem_subelementsOfAll.mpr ⟨option, member, within⟩)
    rw [Element.walk]
    refine walkAny_keeps (fun option member => ?_) (List.forall_mem_nil _)
    exact ih option member
      (fun kind place follow within => tokens kind place follow (among member within))
      (fun rule place within => calls rule place (among member within)) position follow inside
  | optional item ih =>
    rw [Element.walk]
    refine keeps_union (ih (fun kind place follow within => ?_) (fun rule place within => ?_)
      position follow inside) fun stop member => List.mem_singleton.mp member ▸ inside
    · exact tokens kind place follow (List.mem_cons_of_mem _ within)
    · exact calls rule place (List.mem_cons_of_mem _ within)
  | repeated item ih =>
    rw [Element.walk]
    have begun (stop) (member : stop ∈ [position]) : arrives stop :=
      List.mem_singleton.mp member ▸ inside
    refine keeps_reachAll (fun start here => ih (fun kind place follow within => ?_)
      (fun rule place within => ?_) start _ here) _ begun begun
    · exact tokens kind place follow (List.mem_cons_of_mem _ within)
    · exact calls rule place (List.mem_cons_of_mem _ within)

theorem walk_preserves (stable : Stable caret holds)
    (calls : ∀ rule position, Preserves holds (descend rule position stack)) (element : Element)
    (position : Nat) (follow : List Element) :
    Preserves holds (element.walk caret descend position stack follow) := by
  refine walk_keeps element (fun kind place behind _ _ => ?_)
    (fun rule place _ _ => calls rule place) position follow trivial
  rw [Element.walk]
  split
  · intro state reached after kept ran
    cases ran
    exact ⟨stable.report state kind stack behind kept, List.forall_mem_nil _⟩
  · split <;> exact keeps_pure fun _ _ => trivial

/-- What the steps of a walk keep, the walk keeps. -/
theorem walkRule_preserves (stable : Stable caret holds) (depth : Nat) (rule : Rule)
    (position : Nat) (stack : List Frame) :
    Preserves holds (walkRule grammar caret depth rule position stack) := by
  induction depth generalizing rule position stack with
  | zero => exact keeps_zero
  | succ depth ih =>
    refine keeps_rule (fun state kept _ _ => stable.addRule state _ kept)
      (fun _ _ _ _ _ _ => trivial)
      (fun state ends kept _ => stable.record state rule position ends kept) fun element _ _ => ?_
    exact walk_preserves stable (fun target place => ih target place _) element position []

/-! ## The first token found -/

variable {candidate : TokenCandidate} {depth : Nat} {entered : List Rule} {kind : Kind}

/-- No token candidate is taken back. -/
theorem stable_tokens (caret : Caret) (front : List TokenCandidate) :
    Stable caret fun state => front <+: state.candidates.tokens where
  report state kind stack follow kept := by
    unfold WalkState.report
    split
    · unfold Candidates.addRule
      split <;> exact kept
    · split
      · exact kept
      · simp only [Candidates.addToken]
        split
        · exact kept
        · exact kept.trans (List.prefix_append _ _)
  addRule state candidate kept := by
    unfold Candidates.addRule
    split <;> exact kept
  record _ _ _ _ kept := kept

/-- Run at the beginning of the text, before a token is found and with these rules entered only, the
action finds the candidate first. -/
def Leads (candidate : TokenCandidate) (entered : List Rule) (action : WalkM (List Nat)) : Prop :=
  ∀ state reached after, state.candidates.tokens = [] →
    (∀ rule ∉ entered, state.recorded[(rule, 0)]? = none) → action state = .ok (reached, after) →
      [candidate] <+: after.candidates.tokens

theorem leads_bind {action : WalkM (List Nat)} {next : List Nat → WalkM (List Nat)}
    (leads : Leads candidate entered action)
    (keeps : ∀ reached,
      Preserves (fun state => [candidate] <+: state.candidates.tokens) (next reached)) :
    Leads candidate entered (action >>= next) := by
  intro state reached after empty fresh ran
  obtain ⟨found, middle, passed, onward⟩ := exists_of_bind_eq_ok ran
  exact (keeps found _ _ _ (leads state _ _ empty fresh passed) onward).1

/-- Behind what found the candidate, an element leaves it the first. -/
private theorem walk_preserves_first (grammar : Grammar) (caret : Caret)
    (candidate : TokenCandidate) (depth : Nat) (stack : List Frame) (element : Element)
    (position : Nat) (follow : List Element) :
    Preserves (fun state => [candidate] <+: state.candidates.tokens)
      (element.walk caret (walkRule grammar caret depth) position stack follow) :=
  walk_preserves (stable_tokens caret [candidate])
    (fun rule place => walkRule_preserves (stable_tokens caret [candidate]) depth rule place stack)
    element position follow

/-- The first part of a sequence is walked first. -/
theorem leads_head
    (leads : Leads candidate entered
      (item.walk caret (walkRule grammar caret depth) 0 stack (rest ++ follow))) :
    Leads candidate entered
      ((Element.sequence (item :: rest)).walk caret (walkRule grammar caret depth) 0 stack
        follow) := by
  rw [Element.walk, Element.walkInOrder, List.foldlM_cons]
  exact leads_bind (leads_bind (leads_bind leads fun _ => keeps_pure fun _ _ => trivial)
      fun _ => keeps_pure fun _ _ => trivial)
    fun reached => walkInOrder_keeps
      (fun part _ place behind _ =>
        walk_preserves_first grammar caret candidate depth stack part place behind)
      (fun _ _ => trivial) _

/-- The first option of a choice is walked first. -/
theorem leads_option
    (leads : Leads candidate entered
      (option.walk caret (walkRule grammar caret depth) 0 stack follow)) :
    Leads candidate entered
      ((Element.choice (option :: others)).walk caret (walkRule grammar caret depth) 0 stack
        follow) := by
  rw [Element.walk, Element.walkAny]
  exact leads_bind leads fun reached => walkAny_keeps
    (fun part _ => walk_preserves_first grammar caret candidate depth stack part 0 follow)
    fun _ _ => trivial

/-- A rule that was not entered before, and is not reported as a whole, is walked. -/
theorem leads_rule (plain : caret.prefers rule = false) (new : rule ∉ entered)
    (defined : grammar rule = some element)
    (leads : Leads candidate (rule :: entered)
      (element.walk caret (walkRule grammar caret depth) 0 (⟨rule, 0⟩ :: stack) [])) :
    Leads candidate entered (walkRule grammar caret (depth + 1) rule 0 stack) := by
  intro state reached after empty fresh ran
  rw [walkRule_apply, plain, Bool.and_false, if_neg (by simp), fresh rule new, defined] at ran
  obtain ⟨outcome, passed, same⟩ := exists_of_map_eq_ok ran
  cases same
  have others (other) (outside : other ∉ rule :: entered) :
      (state.record rule 0 []).recorded[(other, 0)]? = none := by
    rw [List.mem_cons, not_or] at outside
    rw [WalkState.getElem?_record, if_neg (by simp [Ne.symm outside.1])]
    exact fresh other outside.2
  exact leads (state.record rule 0 []) outcome.1 outcome.2 empty others passed

/-- A stack without a preferred rule is clear, and any other splits at the innermost one. -/
theorem clear_or_split (caret : Caret) (stack : List Frame) :
    (stack.dropWhile (fun frame => !caret.prefers frame.rule) = [] ∧ caret.Clear stack) ∨
      ∃ inner frame outer, stack = inner ++ frame :: outer ∧ caret.Clear inner ∧
        caret.prefers frame.rule ∧
        stack.dropWhile (fun frame => !caret.prefers frame.rule) = frame :: outer := by
  induction stack with
  | nil => exact .inl ⟨rfl, List.forall_mem_nil _⟩
  | cons top below ih =>
    by_cases preferred : caret.prefers top.rule
    · exact .inr ⟨[], top, below, rfl, List.forall_mem_nil _, preferred,
        by simp [preferred]⟩
    · rcases ih with ⟨none, clear⟩ | ⟨inner, frame, outer, rfl, clear, prefers, split⟩
      · refine .inl ⟨by simp [preferred, none], fun frame member => ?_⟩
        rcases List.mem_cons.mp member with rfl | member
        · exact preferred
        · exact clear frame member
      · refine .inr ⟨top :: inner, frame, outer, rfl, fun frame member => ?_, prefers, by
          simp [preferred, split]⟩
        rcases List.mem_cons.mp member with rfl | member
        · exact preferred
        · exact clear frame member

/-- At the caret a token is reported, with what follows it. -/
theorem leads_token (clear : caret.Clear stack) (wanted : kind ∉ caret.ignored)
    (here : caret.position = 0) :
    Leads ⟨kind, (followUp caret.ignored follow).1, (followUp caret.ignored follow).2⟩ entered
      ((Element.token kind).walk caret descend 0 stack follow) := by
  intro state reached after empty _ ran
  rw [Element.walk, if_pos here.symm] at ran
  cases ran
  simp [WalkState.report, dropWhile_clear clear, wanted, Candidates.addToken, empty]

end CypherAssist.Grammar
