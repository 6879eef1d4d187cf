import CypherAssist.Proofs.Grammar.Derives
import CypherAssist.Proofs.Grammar.Outcomes

/-! Relations of parser actions. Elements are matched by sequencing actions and asking for tokens,
whatever the rules below them do. So a relation of two actions that sequencing keeps holds of an
element as soon as it holds of the rules that the element enters, and the derivations found are
genuine if theirs are. With one action on both sides the relation says what the action keeps. -/
namespace CypherAssist.Grammar
open Token Outcomes Parts

/-- A relation of two actions and of what holds of the value that both give. -/
abbrev Relating := (α : Type) → ParserM α → ParserM α → (α → Prop) → Prop

/-- The relation is kept by sequencing, and asking for a token makes no difference to it. -/
structure Sequencing (relates : Relating) : Prop where
  pure : ∀ {α : Type} {value : α} {holds : α → Prop}, holds value →
    relates α (pure value) (pure value) holds
  bind : ∀ {α β : Type} {one other : ParserM α} {next after : α → ParserM β}
    {holds : α → Prop} {result : β → Prop}, relates α one other holds →
      (∀ value, holds value → relates β (next value) (after value) result) →
        relates β (one >>= next) (other >>= after) result
  expect : ∀ (position : Nat) (kind : Kind), relates Unit
    (modify (·.expect position kind)) (modify (·.expect position kind)) fun _ => True

/-- It holds of every outcome. -/
def Outcomes.All (holds : Reach → α → Prop) (outcomes : Outcomes α) : Prop :=
  ∀ reach found, (reach, found) ∈ outcomes → holds reach found

variable {relates : Relating} {grammar : Grammar} {input : List Kind} {kinds : Array Kind}

/-! ## Outcomes -/

theorem all_nil {holds : Reach → α → Prop} : All holds ([] : Outcomes α) :=
  fun _ _ member => nomatch member

theorem all_singleton {holds : Reach → α → Prop} {reach : Reach} {found : α}
    (here : holds reach found) : All holds [(reach, found)] := by
  intro place value member
  cases List.mem_singleton.mp member
  exact here

theorem all_merge {holds : Reach → α → Prop} {earlier later : Outcomes α}
    (before : All holds earlier) (after : All holds later) : All holds (earlier.merge later) :=
  fun reach found member => (mem_of_mem_merge member).elim (before reach found) (after reach found)

theorem all_map {holds : Reach → α → Prop} {seen : Reach → β → Prop} {outcomes : Outcomes α}
    {f : Reach × α → β} (each : ∀ reach found, holds reach found → seen reach (f (reach, found)))
    (all : All holds outcomes) : All seen (outcomes.map fun outcome => (outcome.1, f outcome)) := by
  intro reach value member
  obtain ⟨⟨_, found⟩, inside, same⟩ := List.mem_map.mp member
  cases same
  exact each _ found (all _ found inside)

theorem all_behind {holds : Reach → List Derivation → Prop} {children : List Derivation}
    {more : Parts} (all : All (fun reach added => holds reach (children ++ added)) more) :
    All holds (behind children more) :=
  all_map (fun _ _ here => here) all

/-! ## Loops -/

theorem relates_mono (sequencing : Sequencing relates) {one other : ParserM α}
    {holds wider : α → Prop} (related : relates α one other holds)
    (into : ∀ value, holds value → wider value) : relates α one other wider := by
  simpa using sequencing.bind related fun value here => sequencing.pure (into value here)

theorem relates_foldlM (sequencing : Sequencing relates) {step other : β → α → ParserM β}
    {holds : β → Prop} (items : List α) {start : β} (begun : holds start)
    (each : ∀ item ∈ items, ∀ found, holds found →
      relates β (step found item) (other found item) holds) :
    relates β (items.foldlM step start) (items.foldlM other start) holds := by
  induction items generalizing start with
  | nil => exact sequencing.pure begun
  | cons item rest ih =>
    rw [List.foldlM_cons, List.foldlM_cons]
    exact sequencing.bind (each item (by simp) start begun) fun found here =>
      ih here fun later inside => each later (List.mem_cons_of_mem _ inside)

variable {step other : Nat → ParserM Parts} {before holds : Reach → List Derivation → Prop}

/-- What a step adds behind the children so far is merged into what is known. -/
private theorem relates_merge (sequencing : Sequencing relates) {one two : ParserM Parts}
    {known : Parts} {children : List Derivation} (all : All holds known)
    (stepped : relates Parts one two (All fun reach added => holds reach (children ++ added))) :
    relates Parts (one >>= fun more => pure (known.merge (behind children more)))
      (two >>= fun more => pure (known.merge (behind children more))) (All holds) :=
  sequencing.bind stepped fun _ added => sequencing.pure (all_merge all (all_behind added))

theorem relates_extend (sequencing : Sequencing relates) {current : Parts}
    (all : All before current) (cut : ∀ children, before .cut children → holds .cut children)
    (each : ∀ position children, before (.upTo position) children →
      relates Parts (step position) (other position)
        (All fun reach added => holds reach (children ++ added))) :
    relates Parts (extend step current) (extend other current) (All holds) := by
  refine relates_foldlM sequencing current all_nil fun outcome inside found known => ?_
  obtain ⟨reach, children⟩ := outcome
  cases reach with
  | cut => exact sequencing.pure (all_merge known (all_singleton (cut _ (all _ _ inside))))
  | upTo position => exact relates_merge sequencing known (each _ _ (all _ _ inside))

/-- A repetition keeps what holds of the outcomes known and of each step behind one of them. -/
theorem relates_iterate (sequencing : Sequencing relates)
    (each : ∀ position children, holds (.upTo position) children →
      relates Parts (step position) (other position)
        (All fun reach added => holds reach (children ++ added)))
    (rounds : Nat) {known : Parts} {frontier : List (Nat × List Derivation)}
    (all : All holds known)
    (front : ∀ position children, (position, children) ∈ frontier →
      holds (.upTo position) children) :
    relates Parts (iterate step rounds known frontier) (iterate other rounds known frontier)
      (All holds) := by
  induction rounds generalizing known frontier with
  | zero => exact sequencing.pure all
  | succ rounds ih =>
    cases frontier with
    | nil => exact sequencing.pure all
    | cons outcome others =>
      refine sequencing.bind (relates_foldlM sequencing _ all fun item inside found here =>
        relates_merge sequencing here (each _ _ (front _ _ inside))) fun grown here => ?_
      refine ih here fun position children inside => ?_
      -- The next frontier is made of outcomes that the round has found.
      obtain ⟨⟨reach, found⟩, among, continues⟩ := List.mem_filterMap.mp inside
      cases reach with
      | cut => cases continues
      | upTo place =>
        cases continues
        exact here _ _ ((List.drop_sublist ..).subset among)

/-! ## Elements -/

/-- What is derived for a rule at a position is genuine. -/
abbrev Genuine (grammar : Grammar) (input : List Kind) (rule : Rule) (position : Nat)
    (found : Outcomes Derivation) : Prop :=
  All (fun reach derivation =>
    Derives grammar input (.reference rule) position reach [derivation]) found

theorem genuine_close (defined : grammar rule = some element)
    (derived : All (Derives grammar input element position) parts) :
    Genuine grammar input rule position (Outcomes.close rule parts) :=
  all_map (fun _ _ here => .reference defined here) derived

variable {descend below : Rule → Nat → ParserM (Outcomes Derivation)}

/-- The actions for a rule are related, and what they derive is genuine. -/
abbrev RelatesRule (relates : Relating) (grammar : Grammar) (kinds : Array Kind)
    (descend below : Rule → Nat → ParserM (Outcomes Derivation)) (rule : Rule) (place : Nat) :
    Prop :=
  relates _ (descend rule place) (below rule place) (Genuine grammar kinds.toList rule place)

/-- The actions for an element are related wherever those for the rules that it enters are. -/
private abbrev RelatesElement (relates : Relating) (grammar : Grammar) (kinds : Array Kind)
    (descend below : Rule → Nat → ParserM (Outcomes Derivation)) (element : Element) : Prop :=
  ∀ position,
    (∀ rule place, Calls grammar kinds.size element position rule place →
      RelatesRule relates grammar kinds descend below rule place) →
    relates _ (element.parts kinds descend position) (element.parts kinds below position)
      (All (Derives grammar kinds.toList element position))

/-- Behind an item an outcome that is cut short is final; any other adds to one known before. -/
private def Following (grammar : Grammar) (input : List Kind) (item : Element)
    (before holds : Reach → List Derivation → Prop) (reach : Reach) (all : List Derivation) :
    Prop :=
  (reach = .cut ∧ holds .cut all) ∨
    ∃ target middle children added, reach = .upTo target ∧ before (.upTo middle) children ∧
      Derives grammar input item middle (.upTo target) added ∧ all = children ++ added

private theorem partsInOrder_relates (sequencing : Sequencing relates) {items : List Element}
    (each : ∀ item ∈ items, RelatesElement relates grammar kinds descend below item)
    {before : Reach → List Derivation → Prop} {current : Parts} (all : All before current)
    (cut : ∀ children, before .cut children → holds .cut children)
    (onward : ∀ middle children, before (.upTo middle) children → ∀ reach added,
      Derives grammar kinds.toList (.sequence items) middle reach added →
        holds reach (children ++ added))
    (calls : ∀ middle children, before (.upTo middle) children → ∀ rule place,
      Calls grammar kinds.size (.sequence items) middle rule place →
        RelatesRule relates grammar kinds descend below rule place) :
    relates _ (Element.partsInOrder kinds descend items current)
      (Element.partsInOrder kinds below items current) (All holds) := by
  induction items generalizing before current with
  | nil =>
    refine sequencing.pure fun reach children member => ?_
    have here := all reach children member
    cases reach with
    | cut => exact cut children here
    | upTo middle => simpa using onward middle children here _ _ .empty
  | cons item rest ih =>
    have first : relates _ (extend (fun start => item.parts kinds descend start) current)
        (extend (fun start => item.parts kinds below start) current)
        (All (Following grammar kinds.toList item before holds)) := by
      refine relates_extend sequencing all (fun children early => .inl ⟨rfl, cut children early⟩)
        fun middle children start => ?_
      have here := each item (by simp) middle fun rule place called =>
        calls middle children start rule place (calls_head called)
      refine relates_mono sequencing here fun found derived reach added member => ?_
      have here := derived reach added member
      cases reach with
      | cut => exact .inl ⟨rfl, onward middle children start _ _ (.sequenceCut here)⟩
      | upTo target => exact .inr ⟨target, middle, children, added, rfl, start, here, rfl⟩
    refine sequencing.bind first fun found known =>
      ih (fun later inside => each later (List.mem_cons_of_mem _ inside)) known ?_ ?_ ?_
    · rintro children (⟨-, final⟩ | ⟨_, _, _, _, impossible, -⟩)
      · exact final
      · cases impossible
    · rintro target _ (⟨impossible, -⟩ | ⟨_, middle, children, added, same, start, here, rfl⟩)
        reach more later
      · cases impossible
      · cases same
        rw [List.append_assoc]
        exact onward middle children start _ _ (.sequence here later)
    · rintro target _ (⟨impossible, -⟩ | ⟨_, middle, children, added, same, start, here, rfl⟩)
        rule place called
      · cases impossible
      · cases same
        refine calls middle children start rule place ?_
        rw [← Array.length_toList] at called ⊢
        exact calls_tail (spans_of_derives here) called

private theorem partsOfAny_relates (sequencing : Sequencing relates) {options : List Element}
    (each : ∀ option ∈ options, relates _ (option.parts kinds descend position)
      (option.parts kinds below position) (All holds)) {found : Parts} (all : All holds found) :
    relates _ (Element.partsOfAny kinds descend options position found)
      (Element.partsOfAny kinds below options position found) (All holds) := by
  induction options generalizing found with
  | nil => exact sequencing.pure all
  | cons option rest ih =>
    exact sequencing.bind (each option (by simp)) fun more here =>
      ih (fun later inside => each later (List.mem_cons_of_mem _ inside)) (all_merge all here)

/-- What holds of the actions for the rules that an element enters holds of the element. -/
theorem parts_relates (sequencing : Sequencing relates) (element : Element) :
    RelatesElement relates grammar kinds descend below element := by
  induction element using Element.induction with
  | token kind =>
    intro position _
    simp only [Element.parts]
    cases present : kinds[position]? with
    | none =>
      exact sequencing.bind (sequencing.expect position kind) fun _ _ =>
        sequencing.pure (all_singleton (.brokenOff (by simpa using present)))
    | some found =>
      by_cases same : found = kind
      · simp only [same, ↓reduceIte]
        exact sequencing.pure (all_singleton (.token (by simp [present, same])))
      · simp only [same, ↓reduceIte]
        exact sequencing.bind (sequencing.expect position kind) fun _ _ => sequencing.pure all_nil
  | reference target =>
    intro position calls
    exact sequencing.bind (calls target position calls_reference) fun found derived =>
      sequencing.pure (all_map (fun _ _ here => here) derived)
  | sequence items ih =>
    intro position calls
    have start : All
        (fun reach (children : List Derivation) => reach = .upTo position ∧ children = [])
        [(.upTo position, [])] := all_singleton ⟨rfl, rfl⟩
    refine partsInOrder_relates sequencing ih start ?_ ?_ ?_
    · rintro children ⟨impossible, -⟩
      cases impossible
    · rintro middle children ⟨same, rfl⟩ reach added derived
      cases same
      exact derived
    · rintro middle children ⟨same, rfl⟩
      cases same
      exact calls
  | choice options ih =>
    intro position calls
    refine partsOfAny_relates sequencing (fun option member => ?_) all_nil
    refine relates_mono sequencing
      (ih option member position fun rule place called => calls rule place
        (calls_choice member called)) ?_
    exact fun found derived reach children inside => .choice member (derived reach children inside)
  | optional item ih =>
    intro position calls
    have inside := ih position fun rule place called => calls rule place (calls_optional called)
    refine sequencing.bind inside fun found derived => sequencing.pure (all_merge ?_ ?_)
    · exact fun reach children member => .taken (derived reach children member)
    · exact all_singleton .skipped
  | repeated item ih =>
    intro position calls
    refine relates_iterate sequencing (fun middle children before => ?_) _
      (all_singleton .done) (fun start children member => ?_)
    · have inside := ih middle fun rule place called => calls rule place (by
        rw [← Array.length_toList] at called ⊢
        exact calls_repeated (spans_of_derives before) called)
      refine relates_mono sequencing inside fun found derived reach added member => ?_
      exact derives_repeated_snoc before (derived reach added member)
    · cases List.mem_singleton.mp member
      exact .done

end CypherAssist.Grammar
