import CypherAssist.Proofs.Grammar.Walk

/-! Candidates are exact. A rule is walked once at each position, and what it reports then is what
it would report on any later visit: the tokens that it asks for where no preferred rule is open, and
the rules that it tells. -/
namespace CypherAssist.Grammar
open Token Relation

variable {grammar : Grammar} {caret : Caret} {stack : List Frame} {kind : Kind} {place stop : Nat}
  {opened : Set (Rule × Nat)} {fails : Obstacle → Prop}

/-! ## What the parts of an element ask for -/

theorem mem_asks_cons :
    kind ∈ asks grammar caret (.sequence (item :: rest)) position ↔
      kind ∈ asks grammar caret item position ∨
        ∃ middle, Spans grammar caret.before item position middle ∧
          kind ∈ asks grammar caret (.sequence rest) middle := by
  simp only [asks, Set.mem_ofPred_eq, meets_cons_iff, and_or_left, ← exists_and_left, and_left_comm]

theorem mem_asks_choice :
    kind ∈ asks grammar caret (.choice options) position ↔
      ∃ option ∈ options, kind ∈ asks grammar caret option position := by
  simp only [asks, Set.mem_ofPred_eq, meets_choice_iff, ← exists_and_left, and_left_comm]

theorem asks_optional :
    asks grammar caret (.optional item) position = asks grammar caret item position := by
  simp only [asks, meets_optional_iff]

theorem mem_asks_repeated :
    kind ∈ asks grammar caret (.repeated item) position ↔
      ∃ middle, Spans grammar caret.before (.repeated item) position middle ∧
        kind ∈ asks grammar caret item middle := by
  simp only [asks, Set.mem_ofPred_eq, meets_repeated_iff, ← exists_and_left, and_left_comm]

/-- A rule asks for what its right-hand side does, unless it is preferred. -/
theorem mem_asks_reference (defined : grammar rule = some element) :
    kind ∈ asks grammar caret (.reference rule) position ↔
      caret.Admits rule ∧ kind ∈ asks grammar caret element position := by
  simp only [asks, Set.mem_ofPred_eq, meets_reference_iff defined, and_left_comm]

/-- A single token is asked for only where it would stand. -/
theorem asks_token_of_ne (elsewhere : position ≠ caret.position) :
    asks grammar caret (.token kind) position = ∅ := by
  refine Set.eq_empty_of_forall_notMem ?_
  rintro other ⟨-, meets⟩
  cases meets
  exact elsewhere rfl

theorem asks_nil : asks grammar caret (.sequence []) position = ∅ :=
  Set.eq_empty_of_forall_notMem fun _ ⟨_, meets⟩ => nomatch meets

theorem asks_of_preferred (preferred : caret.prefers rule) :
    asks grammar caret (.reference rule) position = ∅ := by
  refine Set.eq_empty_of_forall_notMem ?_
  rintro asked ⟨-, meets⟩
  cases meets with
  | reference enters => exact enters preferred

/-! ## What the parts of an element tell -/

theorem mem_tells_cons :
    rule ∈ tells grammar caret holder (.sequence (item :: rest)) position ↔
      rule ∈ tells grammar caret holder item position ∨
        ∃ middle, Spans grammar caret.before item position middle ∧
          rule ∈ tells grammar caret holder (.sequence rest) middle := by
  constructor
  · intro told
    cases told with
    | head inside => exact .inl inside
    | tail before inside => exact .inr ⟨_, before, inside⟩
  · rintro (inside | ⟨middle, before, inside⟩)
    · exact .head inside
    · exact .tail before inside

theorem mem_tells_choice :
    rule ∈ tells grammar caret holder (.choice options) position ↔
      ∃ option ∈ options, rule ∈ tells grammar caret holder option position := by
  constructor
  · intro told
    cases told with
    | choice member inside => exact ⟨_, member, inside⟩
  · rintro ⟨option, member, inside⟩
    exact .choice member inside

theorem tells_optional :
    tells grammar caret holder (.optional item) position =
      tells grammar caret holder item position := by
  ext rule
  constructor
  · intro told
    cases told with
    | optional inside => exact inside
  · exact .optional

theorem mem_tells_repeated :
    rule ∈ tells grammar caret holder (.repeated item) position ↔
      ∃ middle, Spans grammar caret.before (.repeated item) position middle ∧
        rule ∈ tells grammar caret holder item middle := by
  constructor
  · intro told
    cases told with
    | repeated before inside => exact ⟨_, before, inside⟩
  · rintro ⟨middle, before, inside⟩
    exact .repeated before inside

/-- What a rule tells does not depend on where it is mentioned. -/
theorem tells_reference (holder other : Option Rule) :
    tells grammar caret holder (.reference rule) position =
      tells grammar caret other (.reference rule) position := by
  ext found
  constructor
  all_goals
    intro told
    cases told with
    | arrives preferred => exact .arrives preferred
    | enters passes defined inside => exact .enters passes defined inside

theorem tells_nil : tells grammar caret holder (.sequence []) position = ∅ :=
  Set.eq_empty_of_forall_notMem fun _ told => nomatch told

theorem tells_token_of_ne (elsewhere : position ≠ caret.position) :
    tells grammar caret holder (.token kind) position = ∅ := by
  refine Set.eq_empty_of_forall_notMem fun rule told => ?_
  cases told
  exact elsewhere rfl

/-- At the caret a preferred rule tells itself only. -/
theorem tells_of_reported (holder : Option Rule)
    (reports : position = caret.position && caret.prefers rule) :
    tells grammar caret holder (.reference rule) position ⊆ {rule} := by
  intro found told
  cases told with
  | arrives => rfl
  | enters passes => exact absurd reports passes

/-- Elsewhere a rule tells what its right-hand side does. -/
theorem tells_of_entered (holder : Option Rule) (defined : grammar rule = some element)
    (enters : ¬ (position = caret.position && caret.prefers rule)) :
    tells grammar caret holder (.reference rule) position ⊆
      tells grammar caret (some rule) element position := by
  intro found told
  cases told with
  | arrives preferred => simp [preferred] at enters
  | enters _ same inside =>
    cases defined.symm.trans same
    exact inside

/-- What fits an element fits whatever asks for no more. -/
theorem fits_mono (fits : Fits grammar caret stack element position)
    (fewer : ∀ kind ∈ asks grammar caret other place, kind ∈ asks grammar caret element position) :
    Fits grammar caret stack other place :=
  fits.imp_right fun none => Set.subset_eq_empty fewer none

/-! ## Elements -/

variable {descend : Rule → Nat → List Frame → WalkM (List Nat)}

/-- A rule entered arrives at its ends and reports what it asks for. -/
private abbrev Visits (grammar : Grammar) (caret : Caret) (opened : Set (Rule × Nat))
    (fails : Obstacle → Prop) (descend : Rule → Nat → List Frame → WalkM (List Nat))
    (stack : List Frame) (rule : Rule) (place : Nat) : Prop :=
  place ≤ caret.position → Fits grammar caret stack (.reference rule) place →
    Walks grammar caret opened fails (descend rule place stack)
      (Spans grammar caret.before (.reference rule) place)
      (asks grammar caret (.reference rule) place)
      (tells grammar caret none (.reference rule) place)

/-- An element walked from a position arrives at its ends and reports what it asks for, if the rules
that it enters do. -/
private def Strides (grammar : Grammar) (caret : Caret) (opened : Set (Rule × Nat))
    (fails : Obstacle → Prop) (descend : Rule → Nat → List Frame → WalkM (List Nat))
    (stack : List Frame) (element : Element) : Prop :=
  ∀ position follow, position ≤ caret.position → Fits grammar caret stack element position →
    (∀ rule place, Calls grammar caret.before.length element position rule place →
      Visits grammar caret opened fails descend stack rule place) →
    Walks grammar caret opened fails (element.walk caret descend position stack follow)
      (Spans grammar caret.before element position) (asks grammar caret element position)
      (tells grammar caret (holder? stack) element position)

private theorem spans_position (inside : position ≤ caret.position)
    (spans : Spans grammar caret.before element position stop) :
    position ≤ stop ∧ stop ≤ caret.position := by
  have moved := spans_le spans
  rw [Caret.length_before] at moved
  omega

private theorem token_strides (kind : Kind) :
    Strides grammar caret opened fails descend stack (.token kind) := by
  intro position follow inside fits calls
  rw [Element.walk]
  split
  · rename_i here
    subst here
    intro state settled
    have reported := reported_report state follow fits
    have told := @told_report grammar caret stack kind state follow
    refine ⟨lists_nil fun stop spans => ?_,
      settled_mono settled ?_ (reported ▸ Set.subset_union_left)
        (Set.subset_union_left.trans told), reported, told⟩
    · cases spans with
      | token found =>
        rw [List.getElem?_eq_none (Nat.le_of_eq caret.length_before)] at found
        cases found
    · unfold WalkState.report
      split
      · rfl
      · split <;> rfl
  · rename_i elsewhere
    have found := caret.getElem?_before (Nat.lt_of_le_of_ne inside elsewhere)
    rw [asks_token_of_ne elsewhere, tells_token_of_ne elsewhere, ← found]
    split
    · rename_i same
      refine walks_pure (lists_singleton fun stop => ⟨fun spans => ?_, ?_⟩)
      · cases spans
        rfl
      · rintro rfl
        exact .token same
    · rename_i different
      refine walks_pure (lists_nil fun stop spans => ?_)
      cases spans with
      | token same => exact different same

private theorem walkInOrder_walks {items : List Element}
    (each : ∀ item ∈ items, Strides grammar caret opened fails descend stack item)
    {positions : List Nat} (ascending : positions.Pairwise (· < ·)) (follow : List Element)
    (inside : ∀ position ∈ positions, position ≤ caret.position)
    (fits : ∀ position ∈ positions, Fits grammar caret stack (.sequence items) position)
    (calls : ∀ position ∈ positions, ∀ rule place,
      Calls grammar caret.before.length (.sequence items) position rule place →
      Visits grammar caret opened fails descend stack rule place) :
    Walks grammar caret opened fails
      (Element.walkInOrder caret descend items positions stack follow)
      (fun stop => ∃ position ∈ positions,
        Spans grammar caret.before (.sequence items) position stop)
      {kind | ∃ position ∈ positions, kind ∈ asks grammar caret (.sequence items) position}
      {rule | ∃ position ∈ positions,
        rule ∈ tells grammar caret (holder? stack) (.sequence items) position} := by
  induction items generalizing positions with
  | nil =>
    refine walks_congr (walks_pure
      ⟨ascending, fun stop => ⟨fun member => ⟨stop, member, .empty⟩, ?_⟩⟩)
      (fun _ => Iff.rfl) (by simp [asks_nil]) (by simp [tells_nil])
    rintro ⟨position, member, spans⟩
    cases spans
    exact member
  | cons item rest ih =>
    have here := walks_each positions fun position member =>
      each item (by simp) position (rest ++ follow) (inside position member)
        (fits_mono (fits position member) fun kind asked => mem_asks_cons.mpr (.inl asked))
        fun rule place called => calls position member rule place (calls_head called)
    have later (reached : List Nat)
        (lists : Lists reached fun stop => ∃ position ∈ positions,
          Spans grammar caret.before item position stop) :
        Walks grammar caret opened fails
          (Element.walkInOrder caret descend rest reached stack follow)
          (fun stop => ∃ position ∈ positions,
            Spans grammar caret.before (.sequence (item :: rest)) position stop)
          {kind | ∃ position ∈ positions, ∃ middle,
            Spans grammar caret.before item position middle ∧
            kind ∈ asks grammar caret (.sequence rest) middle}
          {rule | ∃ position ∈ positions, ∃ middle,
            Spans grammar caret.before item position middle ∧
            rule ∈ tells grammar caret (holder? stack) (.sequence rest) middle} := by
      have passed (holds : Nat → Prop) : (∃ middle ∈ reached, holds middle) ↔
          ∃ position ∈ positions, ∃ middle,
            Spans grammar caret.before item position middle ∧ holds middle := by
        simp only [lists.mem_iff]
        constructor
        · rintro ⟨middle, ⟨position, member, first⟩, after⟩
          exact ⟨position, member, middle, first, after⟩
        · rintro ⟨position, member, middle, first, after⟩
          exact ⟨middle, ⟨position, member, first⟩, after⟩
      have others := ih (fun other member => each other (List.mem_cons_of_mem _ member))
        lists.ascending ?_ ?_ ?_
      · refine walks_congr others (fun stop => ?_) (fun kind => passed _)
          fun rule => (passed _).mpr
        simp only [passed, spans_cons_iff]
      all_goals
        intro middle found
        obtain ⟨position, member, first⟩ := (lists.mem_iff middle).mp found
      · exact (spans_position (inside position member) first).2
      · exact fits_mono (fits position member) fun kind asked =>
          mem_asks_cons.mpr (.inr ⟨middle, first, asked⟩)
      · exact fun rule place called => calls position member rule place (calls_tail first called)
    rw [Element.walkInOrder]
    refine walks_congr (walks_bind _ here later) (fun _ => Iff.rfl) (fun kind => ?_) fun rule => ?_
    · simp only [Set.mem_union, Set.mem_ofPred_eq, mem_asks_cons, ← exists_or, ← and_or_left]
    · simp only [Set.mem_union, Set.mem_ofPred_eq, mem_tells_cons, ← exists_or, ← and_or_left,
        imp_self]

private theorem walkAny_walks {options : List Element}
    (each : ∀ option ∈ options, Walks grammar caret opened fails
      (option.walk caret descend position stack follow) (Spans grammar caret.before option position)
      (asks grammar caret option position) (tells grammar caret (holder? stack) option position))
    {reached : List Nat} {arrives : Nat → Prop} (lists : Lists reached arrives) :
    Walks grammar caret opened fails
      (Element.walkAny caret descend options position stack follow reached)
      (fun stop => arrives stop ∨ ∃ option ∈ options,
        Spans grammar caret.before option position stop)
      {kind | ∃ option ∈ options, kind ∈ asks grammar caret option position}
      {rule | ∃ option ∈ options, rule ∈ tells grammar caret (holder? stack) option position} := by
  induction options generalizing reached arrives with
  | nil => exact walks_congr (walks_pure lists) (by simp) (by simp) (by simp)
  | cons option rest ih =>
    rw [Element.walkAny]
    refine walks_congr (walks_bind _ (each option (by simp)) fun more found =>
      ih (fun other member => each other (List.mem_cons_of_mem _ member)) (lists_union lists found))
      (fun stop => ?_) (fun kind => ?_) (fun rule => ?_)
    · simp only [List.mem_cons, exists_eq_or_imp, or_assoc]
    · simp
    · simp

private theorem element_strides (element : Element) :
    Strides grammar caret opened fails descend stack element := by
  induction element using Element.induction with
  | token kind => exact token_strides kind
  | reference target =>
    intro position follow inside fits calls
    rw [tells_reference _ none]
    exact calls target position calls_reference inside fits
  | sequence items ih =>
    intro position follow inside fits calls
    have whole := walkInOrder_walks ih (List.pairwise_singleton _ position) follow
      (by simpa using inside) (by simpa using fits) (by simpa using calls)
    rw [Element.walk]
    exact walks_congr whole (fun stop => by simp) (fun kind => by simp) (fun rule => by simp)
  | choice options ih =>
    intro position follow inside fits calls
    have begun : Lists [] fun _ => False := lists_nil fun _ => not_false
    rw [Element.walk]
    refine walks_congr (walkAny_walks
      (fun option member => ih option member position follow inside ?_ ?_) begun)
      (fun stop => ?_) (fun kind => ?_) (fun rule => mem_tells_choice.mp)
    · exact fits_mono fits fun kind asked => mem_asks_choice.mpr ⟨option, member, asked⟩
    · exact fun rule place called => calls rule place (calls_choice member called)
    · simp only [false_or, spans_choice_iff]
    · simp only [Set.mem_ofPred_eq, mem_asks_choice]
  | optional item ih =>
    intro position follow inside fits calls
    rw [asks_optional, tells_optional]
    have taken := ih position follow inside (by rwa [Fits, asks_optional] at fits)
      fun rule place called => calls rule place (calls_optional called)
    rw [Element.walk]
    refine walks_map (union [position]) taken fun reached found => ?_
    have here : Lists [position] fun stop => stop = position := lists_singleton fun _ => Iff.rfl
    exact lists_congr (lists_union here found) fun stop => spans_optional_iff.symm
  | repeated item ih =>
    intro position follow inside fits calls
    have reachable (middle)
        (steps : ReflTransGen (Spans grammar caret.before item) position middle) :=
      spans_position inside (spans_repeated_iff.mpr steps)
    have repeats := walks_reachAll reachable (fun middle steps =>
      have before := spans_repeated_iff.mpr steps
      ih middle (.repeated item :: follow) (reachable middle steps).2
        (fits_mono fits fun kind asked => mem_asks_repeated.mpr ⟨middle, before, asked⟩)
        fun rule place called => calls rule place (calls_repeated before called))
      (caret.tokens.size + 1) (by rw [Caret.position]; omega)
    rw [Element.walk]
    refine walks_congr repeats (fun stop => spans_repeated_iff.symm) (fun kind => ?_) fun rule => ?_
    · simp only [Set.mem_ofPred_eq, mem_asks_repeated, spans_repeated_iff]
    · simp only [Set.mem_ofPred_eq, mem_tells_repeated, spans_repeated_iff, imp_self]

/-! ## Rules -/

/-- Preferred rules hide no token: none of them may be empty, and where one is open before the caret
it asks for nothing that would be reported. -/
structure Discreet (grammar : Grammar) (caret : Caret) : Prop where
  solid : ∀ rule, caret.prefers rule → ¬ Word grammar (.reference rule) []
  quiet : ∀ rule element position, caret.prefers rule → grammar rule = some element →
    position < caret.position → asks grammar caret element position = ∅

theorem WalkState.getElem?_record (state : WalkState) (rule other : Rule) (position place : Nat)
    (ends : List Nat) :
    (state.record rule position ends).recorded[(other, place)]? =
      if (rule, position) = (other, place) then some ends else state.recorded[(other, place)]? := by
  exact RuleTable.getElem?_insert ..

/-- A rule that is entered may be recorded as anything while it is open. -/
theorem settled_open {state : WalkState} (settled : Settled grammar caret opened state)
    (rule : Rule) (position : Nat) (ends : List Nat) :
    Settled grammar caret (insert (rule, position) opened) (state.record rule position ends) := by
  intro other place known present
  rw [WalkState.getElem?_record] at present
  split at present
  · rename_i same
    exact .inl (same ▸ Set.mem_insert _ _)
  · exact (settled other place known present).imp_left (Set.mem_insert_of_mem _)

/-- A rule is closed by recording its ends, once what it asks for and tells has been reported. -/
theorem settled_close {state : WalkState}
    (settled : Settled grammar caret (insert (rule, position) opened) state) {ends : List Nat}
    (lists : Lists ends (Spans grammar caret.before (.reference rule) position))
    (reported : asks grammar caret (.reference rule) position ⊆ state.reported)
    (told : tells grammar caret none (.reference rule) position ⊆ state.told) :
    Settled grammar caret opened (state.record rule position ends) := by
  intro other place known present
  rw [WalkState.getElem?_record] at present
  split at present
  · rename_i same
    cases same
    cases present
    exact .inr ⟨lists, reported, told⟩
  · rename_i different
    rcases settled other place known present with inside | done
    · rcases Set.mem_insert_iff.mp inside with same | inside
      · exact absurd same.symm different
      · exact .inl inside
    · exact .inr done

/-- What a rule does depends on its place and its record. -/
theorem walkRule_apply (depth : Nat) (rule : Rule) (position : Nat) (stack : List Frame)
    (state : WalkState) :
    walkRule grammar caret (depth + 1) rule position stack state =
      if position = caret.position && caret.prefers rule then
        .ok ([],
          { state with candidates := state.candidates.addRule (caret.ruleAt rule position stack) })
      else
        match state.recorded[(rule, position)]? with
        | some ends => .ok (ends, state)
        | none =>
          match grammar rule with
          | none => .error (.undefined rule)
          | some element =>
            (element.walk caret (walkRule grammar caret depth) position
              (⟨rule, position⟩ :: stack) [] (state.record rule position [])).map fun outcome =>
                (outcome.1, outcome.2.record rule position outcome.1) := by
  simp only [walkRule, bind, get, getThe, MonadStateOf.get, pure, modify, modifyGet,
    MonadStateOf.modifyGet]
  split
  · rfl
  · simp only [StateT.bind, bind, Except.bind, StateT.get, pure, Except.pure]
    cases state.recorded[(rule, position)]? with
    | some ends => rfl
    | none =>
      cases grammar rule with
      | none => rfl
      | some element =>
        simp only [StateT.modifyGet, StateT.bind, bind, Except.bind, pure, Except.pure]
        cases element.walk caret (walkRule grammar caret depth) position
          (⟨rule, position⟩ :: stack) [] (state.record rule position []) <;> rfl

/-- A rule that is entered asks for what its right-hand side does. -/
theorem asks_reference (discreet : Discreet grammar caret) (defined : grammar rule = some element)
    (inside : position ≤ caret.position)
    (enters : ¬ (position = caret.position && caret.prefers rule)) :
    asks grammar caret (.reference rule) position = asks grammar caret element position := by
  ext kind
  rw [mem_asks_reference defined, and_iff_right_iff_imp]
  intro asked preferred
  have earlier : position ≠ caret.position := by simpa [preferred] using enters
  rw [discreet.quiet rule element position preferred defined (Nat.lt_of_le_of_ne inside earlier)]
    at asked
  exact asked

/-- Where a rule fits, so does its right-hand side with the rule open. -/
theorem fits_body (discreet : Discreet grammar caret) (defined : grammar rule = some element)
    (fits : Fits grammar caret stack (.reference rule) position)
    (inside : position ≤ caret.position)
    (enters : ¬ (position = caret.position && caret.prefers rule)) :
    Fits grammar caret (⟨rule, position⟩ :: stack) element position := by
  have same := asks_reference discreet defined inside enters
  by_cases preferred : caret.prefers rule
  · refine .inr (Set.eq_empty_of_forall_notMem fun kind asked => ?_)
    rw [← same, mem_asks_reference defined] at asked
    exact asked.1 preferred
  · refine fits.imp (fun clear frame member => ?_) fun none => same ▸ none
    rcases List.mem_cons.mp member with rfl | member
    · exact preferred
    · exact clear frame member

/-- A preferred rule neither ends at the caret nor asks for a token there. -/
theorem preferred_at_caret (discreet : Discreet grammar caret) (preferred : caret.prefers rule) :
    Lists [] (Spans grammar caret.before (.reference rule) caret.position) ∧
      asks grammar caret (.reference rule) caret.position = ∅ := by
  refine ⟨lists_nil fun stop spans => ?_, asks_of_preferred preferred⟩
  have range := spans_position (Nat.le_refl _) spans
  cases Nat.le_antisymm range.1 range.2
  exact discreet.solid rule preferred (nullable_of_spans spans)

/-- A rule arrives at its ends and reports what it asks for, whatever has been recorded before,
while every rule still open has more burden. -/
theorem walkRule_walks (free : LeftRecursionFree grammar) (discreet : Discreet grammar caret)
    (depth : Nat) (rule : Rule) (position : Nat) (stack : List Frame) (opened : Set (Rule × Nat))
    (inside : position ≤ caret.position)
    (fits : Fits grammar caret stack (.reference rule) position)
    (above : ∀ other ∈ opened, burden grammar caret.before.length rule position <
      burden grammar caret.before.length other.1 other.2) :
    Walks grammar caret opened (Excuse grammar caret.before.length depth rule position)
      (walkRule grammar caret depth rule position stack)
      (Spans grammar caret.before (.reference rule) position)
      (asks grammar caret (.reference rule) position)
      (tells grammar caret none (.reference rule) position) := by
  induction depth generalizing rule position stack opened with
  | zero => exact fun _ _ => .deep (Nat.zero_le _)
  | succ depth ih =>
    intro state settled
    rw [walkRule_apply]
    by_cases reports : position = caret.position && caret.prefers rule
    · rw [if_pos reports]
      have told := told_addRule state (caret.ruleAt rule position stack)
      have itself : tells grammar caret none (.reference rule) position ⊆ {rule} :=
        tells_of_reported none reports
      have gained := Set.union_subset_union_right state.told itself
      obtain ⟨rfl, preferred⟩ := by simpa using reports
      obtain ⟨ends, none⟩ := preferred_at_caret discreet preferred
      have same := reported_addRule state (caret.ruleAt rule caret.position stack)
      exact ⟨ends, settled_mono settled rfl same.superset (told ▸ Set.subset_union_left),
        by rw [same, none, Set.union_empty], gained.trans told.superset⟩
    rw [if_neg reports]
    cases known : state.recorded[(rule, position)]? with
    | some ends =>
      rcases settled rule position ends known with loop | ⟨lists, reported, told⟩
      · exact absurd (above _ loop) (Nat.lt_irrefl _)
      · exact ⟨lists, settled, (Set.union_eq_left.mpr reported).symm,
          Set.union_subset (fun _ inside => inside) told⟩
    | none =>
      cases defined : grammar rule with
      | none => exact .undefined .refl defined
      | some element =>
        have calls (target place)
            (called : Calls grammar caret.before.length element position target place) :
            Visits grammar caret (insert (rule, position) opened)
              (Excuse grammar caret.before.length (depth + 1) rule position)
              (walkRule grammar caret depth) (⟨rule, position⟩ :: stack) target place := by
          intro within fitting
          exact walks_weaken (fun obstacle => excuse_of_calls free defined called)
            (ih target place _ _ within fitting (burden_lt_opened free defined called above))
        have body := element_strides element position [] inside
          (fits_body discreet defined fits inside reports) calls _
          (settled_open settled rule position [])
        rw [← asks_reference discreet defined inside reports] at body
        simp only
        cases ran : element.walk caret (walkRule grammar caret depth) position
            (⟨rule, position⟩ :: stack) [] (state.record rule position []) with
        | error obstacle => simpa only [ran, Except.map] using body
        | ok outcome =>
          obtain ⟨ends, after⟩ := outcome
          simp only [ran] at body
          obtain ⟨lists, kept, reported, told⟩ := body
          have closed := lists_congr lists fun stop => (spans_reference_iff defined).symm
          have gained := (Set.union_subset_union_right state.told
            (tells_of_entered none defined reports)).trans told
          exact ⟨closed, settled_close kept closed (reported ▸ Set.subset_union_right)
            (Set.subset_union_right.trans gained), reported, gained⟩

/-! ## Candidates -/

theorem Caret.before_eq (caret : Caret) :
    caret.before = caret.tokens.toList.dropLast.map (·.kind) := by
  rw [before, position, List.dropLast_eq_take, Array.length_toList]

/-- From the start of the text, an element asks for what a reading of the tokens before the caret
asks for next. -/
theorem mem_asks_zero :
    kind ∈ asks grammar caret element 0 ↔
      kind ∉ caret.ignored ∧ Awaits grammar caret.Admits element caret.before kind := by
  rw [asks, Set.mem_ofPred_eq, meets_iff (Nat.zero_le _), ← caret.length_before]
  simp

/-- Where there is a token to stand at, the candidates are what a walk from the start leaves. -/
theorem collect_of_visible {start : Rule} {stream : List Token} {index : Nat}
    {preferred : List Rule} {ignored : List Kind} (visible : tokensUntil index stream ≠ [])
    (depth : Nat) : collect grammar start stream index preferred ignored depth =
      (walkRule grammar ⟨(tokensUntil index stream).toArray, preferred, ignored⟩ depth start 0 []
        {}).map (·.2.candidates) := by
  rw [collect, if_neg (by simpa using visible)]
  rfl

/-- Candidates are those that a walk from the start of the text leaves, if there is one. -/
theorem walk_of_collect {start : Rule} {stream : List Token} {index depth : Nat}
    {preferred : List Rule} {ignored : List Kind} {found : Candidates}
    (ran : collect grammar start stream index preferred ignored depth = .ok found) :
    (tokensUntil index stream = [] ∧ found = {}) ∨
      ∃ ends state, walkRule grammar ⟨(tokensUntil index stream).toArray, preferred, ignored⟩ depth
        start 0 [] {} = .ok (ends, state) ∧ state.candidates = found := by
  by_cases visible : tokensUntil index stream = []
  · rw [collect, visible] at ran
    cases ran
    exact .inl ⟨visible, rfl⟩
  · rw [collect_of_visible visible] at ran
    cases walked : walkRule grammar ⟨(tokensUntil index stream).toArray, preferred, ignored⟩ depth
      start 0 [] {} with
    | error => simp [walked, Except.map] at ran
    | ok outcome =>
      rw [walked] at ran
      cases ran
      exact .inr ⟨outcome.1, outcome.2, rfl, rfl⟩

theorem settled_empty : Settled grammar caret ∅ {} := by
  intro rule position ends present
  simp at present

/-- No rule that the grammar tells is missing from the candidates. -/
theorem collect_tells (free : LeftRecursionFree grammar) {start : Rule} {stream : List Token}
    {index : Nat} {preferred : List Rule} {ignored : List Kind} {depth : Nat}
    {candidates : Candidates} (visible : tokensUntil index stream ≠ [])
    (discreet : Discreet grammar ⟨(tokensUntil index stream).toArray, preferred, ignored⟩)
    (ran : collect grammar start stream index preferred ignored depth = .ok candidates)
    (told : rule ∈ tells grammar ⟨(tokensUntil index stream).toArray, preferred, ignored⟩ none
      (.reference start) 0) : ∃ candidate ∈ candidates.rules, candidate.rule = rule := by
  obtain ⟨ends, state, walked, rfl⟩ := (walk_of_collect ran).resolve_left fun none => visible none.1
  have walks := walkRule_walks free discreet depth start 0 [] ∅ (Nat.zero_le _)
    (.inl fun _ member => nomatch member) (fun _ member => member.elim) {} settled_empty
  simp only [walked] at walks
  exact walks.2.2.2 (.inr told)

/-- The token candidates are the kinds that some reading of the tokens before the caret asks for
while no preferred rule is open, but for those ignored. -/
theorem collect_tokens (free : LeftRecursionFree grammar) (start : Rule) (stream : List Token)
    (index : Nat) (preferred : List Rule) (ignored : List Kind) (depth : Nat)
    (visible : tokensUntil index stream ≠ [])
    (discreet : Discreet grammar ⟨(tokensUntil index stream).toArray, preferred, ignored⟩) :
    match collect grammar start stream index preferred ignored depth with
    | .error obstacle =>
      Excuse grammar ((tokensUntil index stream).length - 1) depth start 0 obstacle
    | .ok candidates => ∀ kind, (∃ candidate ∈ candidates.tokens, candidate.kind = kind) ↔
        kind ∉ ignored ∧
          Awaits grammar (· ∉ preferred) (.reference start)
            ((tokensUntil index stream).dropLast.map (·.kind)) kind := by
  generalize same : Caret.mk (tokensUntil index stream).toArray preferred ignored = caret
    at discreet
  have walks := walkRule_walks free discreet depth start 0 [] ∅ (Nat.zero_le _)
    (.inl fun _ member => nomatch member) (fun _ member => member.elim) {} settled_empty
  have admits : caret.Admits = (· ∉ preferred) := by
    funext rule
    simp [Caret.Admits, Caret.prefers, ← same]
  rw [collect_of_visible visible, same]
  cases ran : walkRule grammar caret depth start 0 [] {} with
  | error obstacle =>
    simp only [ran, Caret.length_before] at walks
    subst same
    exact walks
  | ok outcome =>
    simp only [ran] at walks
    intro kind
    have reported : kind ∈ outcome.2.reported ↔ kind ∈ asks grammar caret (.reference start) 0 := by
      rw [walks.2.2.1]
      simp [WalkState.reported]
    rw [mem_asks_zero, admits, Caret.before_eq, ← same] at reported
    exact reported

end CypherAssist.Grammar
