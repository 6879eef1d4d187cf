import CypherAssist.Proofs.Grammar.Reading

/-! The parser does what the plain reading says. Its records change nothing about the outcomes: a
rule that is open is never asked for again at its position, since everything entered below it has
less burden, and a finished record holds the plain reading. The tokens asked for in vain are those
that some path arrives at, although a record used again asks for nothing. -/
namespace CypherAssist.Grammar
open Token Outcomes Parts Relation

/-- The tokens that some path through the element asks for in vain, each with its position. -/
def tries (grammar : Grammar) (input : List Kind) (element : Element) (position : Nat) :
    Set (Nat × Kind) :=
  {asked | Meets grammar anyRule input element position asked.1 asked.2 ∧
    input[asked.1]? ≠ some asked.2}

/-- The state knows the farthest of the tokens asked for in vain, and all kinds asked for there. -/
structure Recalls (asked : Set (Nat × Kind)) (state : ParserState) : Prop where
  noted : ∀ position kind, (position, kind) ∈ asked →
    position < state.farthest ∨ (position = state.farthest ∧ kind ∈ state.expected)
  source : ∀ kind ∈ state.expected, (state.farthest, kind) ∈ asked
  origin : state.expected = [] → state.farthest = 0

/-- Every record belongs to a rule still open, or holds the plain reading of its rule, and then the
tokens that the rule asks for in vain have been asked for. -/
structure Faithful (grammar : Grammar) (input : List Kind) (opened : Set (Rule × Nat))
    (asked : Set (Nat × Kind)) (state : ParserState) : Prop extends Recalls asked state where
  recorded : ∀ rule position found, state.recorded[(rule, position)]? = some found →
    (rule, position) ∈ opened ∨
      (found = reading grammar input rule position ∧
        tries grammar input (.reference rule) position ⊆ asked)

/-- Run with faithful records, the action fails only for a reason given. Otherwise it gives the
value, asks in vain for these tokens besides, and leaves the records faithful. -/
def Performs (grammar : Grammar) (input : List Kind) (opened : Set (Rule × Nat))
    (fails : Obstacle → Prop) (action : ParserM α) (value : α) (asked : Set (Nat × Kind)) : Prop :=
  ∀ earlier state, Faithful grammar input opened earlier state →
    match action state with
    | .error obstacle => fails obstacle
    | .ok (result, after) => result = value ∧ Faithful grammar input opened (earlier ∪ asked) after

variable {grammar : Grammar} {input : List Kind} {stop place : Nat} {opened : Set (Rule × Nat)}
  {fails : Obstacle → Prop}

/-! ## States -/

theorem recalls_expect {asked : Set (Nat × Kind)} {state : ParserState}
    (recalls : Recalls asked state) (position : Nat) (kind : Kind) :
    Recalls (asked ∪ {(position, kind)}) (state.expect position kind) := by
  obtain ⟨noted, source, origin⟩ := recalls
  unfold ParserState.expect
  split
  · rename_i farther
    refine ⟨fun place other member => ?_, fun other member => ?_, by simp⟩
    · rcases member with early | late
      · have bound := noted place other early
        simp only
        omega
      · cases late
        simp
    · simp only [List.mem_singleton] at member
      simp [member]
  · split
    · rename_i nearer new
      refine ⟨fun place other member => ?_, fun other member => ?_, by simp⟩
      · rcases member with early | late
        · refine (noted place other early).imp_right fun here => ⟨here.1, ?_⟩
          simp [here.2]
        · cases late
          simp [new.1]
      · rcases List.mem_append.mp member with early | late
        · exact .inl (source other early)
        · simp only [List.mem_singleton] at late
          simp [late, new.1]
    · rename_i nearer known
      refine ⟨fun place other member => ?_, fun other member => .inl (source other member), origin⟩
      rcases member with early | late
      · exact noted place other early
      · cases late
        rcases Nat.lt_or_eq_of_le (Nat.le_of_not_lt nearer) with before | here
        · exact .inl before
        · refine .inr ⟨here, ?_⟩
          by_contra unknown
          exact known ⟨here, unknown⟩

@[simp] theorem recorded_expect (state : ParserState) (position : Nat) (kind : Kind) :
    (state.expect position kind).recorded = state.recorded := by
  unfold ParserState.expect
  split
  · rfl
  · split <;> rfl

theorem faithful_expect {asked : Set (Nat × Kind)} {state : ParserState}
    (faithful : Faithful grammar input opened asked state) (position : Nat) (kind : Kind) :
    Faithful grammar input opened (asked ∪ {(position, kind)}) (state.expect position kind) where
  toRecalls := recalls_expect faithful.toRecalls position kind
  recorded rule place found present := by
    rw [recorded_expect] at present
    exact (faithful.recorded rule place found present).imp_right fun known =>
      ⟨known.1, known.2.trans Set.subset_union_left⟩

theorem getElem?_recorded_record (state : ParserState) (rule other : Rule) (position place : Nat)
    (found : Outcomes Derivation) :
    (state.record rule position found).recorded[(other, place)]? =
      if (rule, position) = (other, place) then some found
      else state.recorded[(other, place)]? := by
  exact RuleTable.getElem?_insert ..

theorem recalls_record {asked : Set (Nat × Kind)} {state : ParserState}
    (recalls : Recalls asked state) (rule : Rule) (position : Nat) (found : Outcomes Derivation) :
    Recalls asked (state.record rule position found) :=
  ⟨recalls.noted, recalls.source, recalls.origin⟩

/-- A rule that is entered may be recorded as anything while it is open. -/
theorem recorded_open {holds : Rule → Nat → Outcomes Derivation → Prop} {state : ParserState}
    (recorded : ∀ rule position found, state.recorded[(rule, position)]? = some found →
      (rule, position) ∈ opened ∨ holds rule position found)
    (rule : Rule) (position : Nat) (found : Outcomes Derivation) (other : Rule) (place : Nat)
    (known : Outcomes Derivation)
    (present : (state.record rule position found).recorded[(other, place)]? = some known) :
    (other, place) ∈ insert (rule, position) opened ∨ holds other place known := by
  rw [getElem?_recorded_record] at present
  split at present
  · rename_i same
    exact .inl (same ▸ Set.mem_insert _ _)
  · exact (recorded other place known present).imp_left (Set.mem_insert_of_mem _)

/-- A rule is closed by recording for it what is as it should be. -/
theorem recorded_close {holds : Rule → Nat → Outcomes Derivation → Prop} {state : ParserState}
    (recorded : ∀ other place known, state.recorded[(other, place)]? = some known →
      (other, place) ∈ insert (rule, position) opened ∨ holds other place known)
    (here : holds rule position found) (other : Rule) (place : Nat) (known : Outcomes Derivation)
    (present : (state.record rule position found).recorded[(other, place)]? = some known) :
    (other, place) ∈ opened ∨ holds other place known := by
  rw [getElem?_recorded_record] at present
  split at present
  · rename_i same
    cases same
    cases present
    exact .inr here
  · rename_i different
    rcases recorded other place known present with inside | settled
    · rcases Set.mem_insert_iff.mp inside with same | inside
      · exact absurd same.symm different
      · exact .inl inside
    · exact .inr settled

theorem faithful_open {asked : Set (Nat × Kind)} {state : ParserState}
    (faithful : Faithful grammar input opened asked state) (rule : Rule) (position : Nat)
    (found : Outcomes Derivation) :
    Faithful grammar input (insert (rule, position) opened) asked
      (state.record rule position found) where
  toRecalls := recalls_record faithful.toRecalls ..
  recorded := recorded_open faithful.recorded rule position found

/-- A rule is closed by recording its plain reading. -/
theorem faithful_close {asked : Set (Nat × Kind)} {state : ParserState}
    (faithful : Faithful grammar input (insert (rule, position) opened) asked state)
    (tried : tries grammar input (.reference rule) position ⊆ asked) :
    Faithful grammar input opened asked
      (state.record rule position (reading grammar input rule position)) where
  toRecalls := recalls_record faithful.toRecalls ..
  recorded := recorded_close faithful.recorded ⟨rfl, tried⟩

/-! ## Actions -/

theorem exists_of_map_eq_ok {ε α β : Type} {f : α → β} {outcome : Except ε α} {value : β}
    (mapped : outcome.map f = .ok value) : ∃ found, outcome = .ok found ∧ f found = value := by
  cases outcome with
  | error => cases mapped
  | ok found =>
    cases mapped
    exact ⟨found, rfl, rfl⟩

theorem eq_error_of_map_eq_error {ε α β : Type} {f : α → β} {outcome : Except ε α} {obstacle : ε}
    (failed : outcome.map f = .error obstacle) : outcome = .error obstacle := by
  cases outcome with
  | ok => cases failed
  | error => exact congrArg Except.error (Except.error.inj failed)

/-- Two actions in a row get through where both do. -/
theorem exists_of_bind_eq_ok {σ ε α β : Type} {action : StateT σ (Except ε) α}
    {next : α → StateT σ (Except ε) β} {state : σ} {result : β × σ}
    (ran : (action >>= next) state = .ok result) :
    ∃ found middle, action state = .ok (found, middle) ∧ next found middle = .ok result := by
  simp only [bind, StateT.bind, Except.bind] at ran
  split at ran
  · cases ran
  · rename_i outcome passed
    exact ⟨outcome.1, outcome.2, passed, ran⟩

theorem bind_of_ok {σ ε α β : Type} {action : StateT σ (Except ε) α}
    {next : α → StateT σ (Except ε) β} {state after : σ} {value : α}
    (ran : action state = .ok (value, after)) : (action >>= next) state = next value after := by
  simp only [bind, StateT.bind, Except.bind, ran]

theorem bind_of_error {action : ParserM α} {next : α → ParserM β} {state : ParserState}
    (failed : action state = .error obstacle) : (action >>= next) state = .error obstacle := by
  simp only [bind, StateT.bind, Except.bind, failed]

theorem performs_pure {value : α} : Performs grammar input opened fails (pure value) value ∅ := by
  intro earlier state faithful
  exact ⟨rfl, by simpa using faithful⟩

theorem performs_weaken {action : ParserM α} {value : α} {asked : Set (Nat × Kind)}
    {allowed : Obstacle → Prop} (wider : ∀ obstacle, fails obstacle → allowed obstacle)
    (performs : Performs grammar input opened fails action value asked) :
    Performs grammar input opened allowed action value asked := by
  intro earlier state faithful
  have ran := performs earlier state faithful
  cases result : action state with
  | error obstacle => exact wider obstacle (by simpa only [result] using ran)
  | ok outcome => simpa only [result] using ran

theorem performs_congr {action : ParserM α} {value : α} {asked more : Set (Nat × Kind)}
    (performs : Performs grammar input opened fails action value asked)
    (same : ∀ tried, tried ∈ asked ↔ tried ∈ more) :
    Performs grammar input opened fails action value more :=
  Set.ext same ▸ performs

theorem performs_bind {action : ParserM α} (next : α → ParserM β) {asked more : Set (Nat × Kind)}
    {value : α} {result : β} (first : Performs grammar input opened fails action value asked)
    (second : Performs grammar input opened fails (next value) result more) :
    Performs grammar input opened fails (action >>= next) result (asked ∪ more) := by
  intro earlier state faithful
  have one := first earlier state faithful
  simp only [bind, StateT.bind, Except.bind]
  cases ran : action state with
  | error obstacle => simpa only [ran] using one
  | ok outcome =>
    obtain ⟨found, after⟩ := outcome
    simp only [ran] at one
    obtain ⟨rfl, kept⟩ := one
    have two := second (earlier ∪ asked) after kept
    rwa [Set.union_assoc] at two

/-- An action whose value is only handed on. -/
theorem performs_map {action : ParserM α} {asked : Set (Nat × Kind)} {value : α} (f : α → β)
    (performs : Performs grammar input opened fails action value asked) :
    Performs grammar input opened fails (action >>= fun found => pure (f found)) (f value)
      asked := by
  simpa using performs_bind (fun found => pure (f found)) performs performs_pure

theorem performs_expect {value : α} (position : Nat) (kind : Kind) :
    Performs grammar input opened fails
      (do modify (·.expect position kind); return value) value {(position, kind)} :=
  fun _ _ faithful => ⟨rfl, faithful_expect faithful position kind⟩

theorem performs_foldlM {step : β → α → ParserM β} {plain : β → α → β}
    {asked : α → Set (Nat × Kind)} (items : List α) (start : β)
    (each : ∀ item ∈ items, ∀ found,
      Performs grammar input opened fails (step found item) (plain found item) (asked item)) :
    Performs grammar input opened fails (items.foldlM step start) (items.foldl plain start)
      {tried | ∃ item ∈ items, tried ∈ asked item} := by
  induction items generalizing start with
  | nil => simpa using performs_pure
  | cons item rest ih =>
    have later := ih (plain start item) fun later inside =>
      each later (List.mem_cons_of_mem _ inside)
    rw [List.foldlM_cons, List.foldl_cons]
    refine performs_congr (performs_bind _ (each item (by simp) start) later) fun tried => ?_
    simp

variable {kinds : Array Kind} {step : Nat → ParserM Parts} {plain : Nat → Parts}
  {asked : Nat → Set (Nat × Kind)}

theorem performs_extend (current : Parts)
    (each : ∀ position, current.reaches (.upTo position) →
      Performs grammar input opened fails (step position) (plain position) (asked position)) :
    Performs grammar input opened fails (extend step current) (extended plain current)
      {tried | ∃ position, current.reaches (.upTo position) ∧ tried ∈ asked position} := by
  have folded : Performs grammar input opened fails (extend step current) (extended plain current)
      {tried | ∃ outcome ∈ current,
        tried ∈ {tried | ∃ position, outcome.1 = .upTo position ∧ tried ∈ asked position}} := by
    refine performs_foldlM current _ fun outcome inside found => ?_
    obtain ⟨reach, children⟩ := outcome
    cases reach with
    | cut => exact performs_congr performs_pure (by simp)
    | upTo position =>
      have here := each position (reaches_iff.mpr ⟨children, inside⟩)
      exact performs_congr (performs_map (fun more => found.merge (behind children more)) here)
        (by simp)
  refine performs_congr folded fun tried => ⟨?_, ?_⟩
  · rintro ⟨⟨reach, children⟩, inside, position, rfl, member⟩
    exact ⟨position, reaches_iff.mpr ⟨children, inside⟩, member⟩
  · rintro ⟨position, reached, member⟩
    obtain ⟨children, inside⟩ := reaches_iff.mp reached
    exact ⟨_, inside, position, rfl, member⟩

theorem performs_iterate (rounds : Nat) (known : Parts) (frontier : List (Nat × List Derivation))
    (each : ∀ position ∈ visited plain rounds known frontier,
      Performs grammar input opened fails (step position) (plain position) (asked position)) :
    Performs grammar input opened fails (iterate step rounds known frontier)
      (iterated plain rounds known frontier)
      {tried | ∃ position ∈ visited plain rounds known frontier, tried ∈ asked position} := by
  induction rounds generalizing known frontier with
  | zero => exact performs_congr performs_pure (by simp [visited])
  | succ rounds ih =>
    cases frontier with
    | nil => exact performs_congr performs_pure (by simp [visited])
    | cons outcome others =>
      have round := performs_foldlM (outcome :: others) known (fun item inside found =>
        performs_map (fun more => found.merge (behind item.2 more))
          (each item.1 (List.mem_append_left _ (List.mem_map.mpr ⟨item, inside, rfl⟩))))
      have later := ih (gathered plain known (outcome :: others))
        (fresh known (gathered plain known (outcome :: others)))
        fun position inside => each position (List.mem_append_right _ inside)
      refine performs_congr (performs_bind _ round later) fun tried => ?_
      simp only [visited, Set.mem_union, Set.mem_ofPred_eq, List.mem_append, List.mem_map]
      constructor
      · rintro (⟨item, inside, member⟩ | ⟨position, inside, member⟩)
        · exact ⟨item.1, .inl ⟨item, inside, rfl⟩, member⟩
        · exact ⟨position, .inr inside, member⟩
      · rintro ⟨position, ⟨item, inside, rfl⟩ | inside, member⟩
        · exact .inl ⟨item, inside, member⟩
        · exact .inr ⟨position, inside, member⟩

/-! ## Elements -/

/-- The plain reading of an element ends where its words end. -/
theorem read_reaches_iff (free : LeftRecursionFree grammar) {element : Element} :
    (element.read input (reading grammar input) position).reaches (.upTo stop) ↔
      Spans grammar input element position stop :=
  ⟨spans_of_reaches (reading_sound grammar input),
    (read_covers (reading_sound grammar input) element position
      fun rule place _ => reading_covers free rule place).complete stop⟩

theorem mem_tries_cons {tried : Nat × Kind} :
    tried ∈ tries grammar input (.sequence (item :: rest)) position ↔
      tried ∈ tries grammar input item position ∨
        ∃ middle, Spans grammar input item position middle ∧
          tried ∈ tries grammar input (.sequence rest) middle := by
  simp only [tries, Set.mem_ofPred_eq, meets_cons_iff, or_and_right, ← exists_and_right, and_assoc]

theorem mem_tries_choice {tried : Nat × Kind} :
    tried ∈ tries grammar input (.choice options) position ↔
      ∃ option ∈ options, tried ∈ tries grammar input option position := by
  simp only [tries, Set.mem_ofPred_eq, meets_choice_iff, ← exists_and_right, and_assoc]

theorem tries_optional :
    tries grammar input (.optional item) position = tries grammar input item position := by
  simp only [tries, meets_optional_iff]

theorem mem_tries_repeated {tried : Nat × Kind} :
    tried ∈ tries grammar input (.repeated item) position ↔
      ∃ middle, Spans grammar input (.repeated item) position middle ∧
        tried ∈ tries grammar input item middle := by
  simp only [tries, Set.mem_ofPred_eq, meets_repeated_iff, ← exists_and_right, and_assoc]

theorem tries_reference (defined : grammar rule = some element) :
    tries grammar input (.reference rule) position = tries grammar input element position := by
  simp only [tries, meets_reference_iff defined, anyRule, true_and]

variable {descend : Rule → Nat → ParserM (Outcomes Derivation)}

/-- A rule entered does what the plain reading says. -/
private abbrev Descends (grammar : Grammar) (kinds : Array Kind) (opened : Set (Rule × Nat))
    (fails : Obstacle → Prop) (descend : Rule → Nat → ParserM (Outcomes Derivation)) (rule : Rule)
    (place : Nat) : Prop :=
  Performs grammar kinds.toList opened fails (descend rule place)
    (reading grammar kinds.toList rule place)
    (tries grammar kinds.toList (.reference rule) place)

private theorem partsInOrder_performs (free : LeftRecursionFree grammar) {items : List Element}
    (each : ∀ item ∈ items, ∀ position,
      (∀ rule place, Calls grammar kinds.size item position rule place →
      Descends grammar kinds opened fails descend rule place) →
      Performs grammar kinds.toList opened fails (item.parts kinds descend position)
      (item.read kinds.toList (reading grammar kinds.toList) position)
      (tries grammar kinds.toList item position))
    (current : Parts)
    (calls : ∀ middle, current.reaches (.upTo middle) → ∀ rule place,
      Calls grammar kinds.size (.sequence items) middle rule place →
      Descends grammar kinds opened fails descend rule place) :
    Performs grammar kinds.toList opened fails (Element.partsInOrder kinds descend items current)
      (Element.readInOrder kinds.toList (reading grammar kinds.toList) items current)
      {tried | ∃ middle, current.reaches (.upTo middle) ∧
        tried ∈ tries grammar kinds.toList (.sequence items) middle} := by
  induction items generalizing current with
  | nil =>
    refine performs_congr performs_pure fun tried => ⟨False.elim, ?_⟩
    rintro ⟨middle, -, meets, -⟩
    cases meets
  | cons item rest ih =>
    have here := performs_extend current fun middle before => each item (by simp) middle
      fun rule place called => calls middle before rule place (calls_head called)
    have later := ih (fun other inside => each other (List.mem_cons_of_mem _ inside))
      (extended (fun start => item.read kinds.toList (reading grammar kinds.toList) start) current)
      fun target reached rule place called => by
        rcases reaches_extended.mp reached with ⟨impossible, -⟩ | ⟨middle, before, stepped⟩
        · cases impossible
        · have spans := (read_reaches_iff free).mp stepped
          exact calls middle before rule place (calls_tail spans called)
    refine performs_congr (performs_bind _ here later) fun tried => ?_
    simp only [Set.mem_union, Set.mem_ofPred_eq, mem_tries_cons, reaches_extended, reduceCtorEq,
      false_and, false_or, read_reaches_iff free]
    constructor
    · rintro (⟨middle, before, inside⟩ | ⟨target, ⟨middle, before, spans⟩, inside⟩)
      · exact ⟨middle, before, .inl inside⟩
      · exact ⟨middle, before, .inr ⟨target, spans, inside⟩⟩
    · rintro ⟨middle, before, inside | ⟨target, spans, inside⟩⟩
      · exact .inl ⟨middle, before, inside⟩
      · exact .inr ⟨target, ⟨middle, before, spans⟩, inside⟩

private theorem partsOfAny_performs {options : List Element}
    (each : ∀ option ∈ options, Performs grammar kinds.toList opened fails
      (option.parts kinds descend position)
      (option.read kinds.toList (reading grammar kinds.toList) position)
      (tries grammar kinds.toList option position))
    (found : Parts) :
    Performs grammar kinds.toList opened fails
      (Element.partsOfAny kinds descend options position found)
      (Element.readAny kinds.toList (reading grammar kinds.toList) options position found)
      (tries grammar kinds.toList (.choice options) position) := by
  induction options generalizing found with
  | nil => exact performs_congr performs_pure (by simp [mem_tries_choice])
  | cons option rest ih =>
    have later := ih (fun other inside => each other (List.mem_cons_of_mem _ inside))
      (found.merge (option.read kinds.toList (reading grammar kinds.toList) position))
    refine performs_congr (performs_bind _ (each option (by simp)) later) fun tried => ?_
    simp only [Set.mem_union, mem_tries_choice, List.mem_cons, exists_eq_or_imp]

/-- An element is parsed as it is read, if the rules that it enters are. -/
theorem parts_performs (free : LeftRecursionFree grammar) (element : Element) (position : Nat)
    (calls : ∀ rule place, Calls grammar kinds.size element position rule place →
      Descends grammar kinds opened fails descend rule place) :
    Performs grammar kinds.toList opened fails (element.parts kinds descend position)
      (element.read kinds.toList (reading grammar kinds.toList) position)
      (tries grammar kinds.toList element position) := by
  induction element using Element.induction generalizing position with
  | token kind =>
    have tried (missed : kinds[position]? ≠ some kind) (other : Nat × Kind) :
        other ∈ ({(position, kind)} : Set (Nat × Kind)) ↔
            other ∈ tries grammar kinds.toList (.token kind) position := by
      constructor
      · rintro rfl
        exact ⟨.token, by simpa using missed⟩
      · obtain ⟨place, asked⟩ := other
        rintro ⟨meets, -⟩
        cases meets
        rfl
    simp only [Element.parts, Element.read, Array.getElem?_toList]
    cases present : kinds[position]? with
    | none => exact performs_congr (performs_expect position kind) (tried (by simp [present]))
    | some found =>
      by_cases same : found = kind
      · simp only [same, ↓reduceIte]
        refine performs_congr performs_pure fun other => ⟨False.elim, ?_⟩
        rintro ⟨meets, missed⟩
        obtain ⟨place, asked⟩ := other
        cases meets
        simp [present, same] at missed
      · simp only [same, ↓reduceIte]
        exact performs_congr (performs_expect position kind) (tried (by simp [present, same]))
  | reference target =>
    exact performs_map (fun found => found.map fun outcome => (outcome.1, [outcome.2]))
      (calls target position calls_reference)
  | sequence items ih =>
    refine performs_congr (partsInOrder_performs free ih _ fun middle start rule place called => ?_)
      fun tried => ?_
    · cases reaches_upTo_singleton start
      exact calls rule place called
    · simp
  | choice options ih =>
    exact partsOfAny_performs (fun option member =>
      ih option member position fun rule place called =>
      calls rule place (calls_choice member called)) _
  | optional item ih =>
    rw [tries_optional]
    exact performs_map (fun found => found.merge [(.upTo position, [])])
      (ih position fun rule place called => calls rule place (calls_optional called))
  | repeated item ih =>
    have visits (middle) : middle ∈
      visited (fun start => item.read kinds.toList (reading grammar kinds.toList) start)
        (kinds.size + 2) [(.upTo position, [])] [(position, [])] ↔
          Spans grammar kinds.toList (.repeated item) position middle := by
      rw [← read_reaches_iff free, ← Array.length_toList]
      exact ⟨reaches_of_visited _ (by simp), visited_of_reaches_repeated (reading_sound _ _)⟩
    have repeats := performs_iterate (kinds.size + 2) [(.upTo position, [])] [(position, [])]
      (fun middle inside => ih middle fun rule place called =>
        calls rule place (calls_repeated ((visits middle).mp inside) called))
    rw [Element.read, Array.length_toList]
    refine performs_congr repeats fun tried => ?_
    simp only [Set.mem_ofPred_eq, visits, mem_tries_repeated]

/-! ## Rules -/

/-- Why parsing a rule may fail: the depth is used up, or an undefined rule is mentioned. -/
inductive Excuse (grammar : Grammar) (size depth : Nat) (rule : Rule) (position : Nat) :
    Obstacle → Prop where
  | deep (short : depth ≤ burden grammar size rule position) :
    Excuse grammar size depth rule position .tooDeep
  | undefined (mentioned : ReflTransGen (Mentions grammar) rule target)
    (absent : grammar target = none) :
    Excuse grammar size depth rule position (.undefined target)

/-- What hinders a rule that is entered hinders the rule that enters it. -/
theorem excuse_of_calls (free : LeftRecursionFree grammar) (defined : grammar rule = some element)
    (called : Calls grammar size element position target place)
    (excuse : Excuse grammar size depth target place obstacle) :
    Excuse grammar size (depth + 1) rule position obstacle := by
  cases excuse with
  | deep short =>
    have less := burden_lt_of_calls free defined called
    exact .deep (Nat.succ_le_of_lt (Nat.lt_of_le_of_lt short less))
  | undefined mentioned absent =>
    exact .undefined (.head ⟨element, defined, called.1⟩ mentioned) absent

/-- What a rule does depends on its record. -/
theorem parseRule_apply (depth : Nat) (rule : Rule) (position : Nat) (state : ParserState) :
    parseRule grammar kinds (depth + 1) rule position state =
      match state.recorded[(rule, position)]? with
      | some found => .ok (found, state)
      | none =>
        match grammar rule with
        | none => .error (.undefined rule)
        | some element =>
          (element.parts kinds (parseRule grammar kinds depth) position
            (state.record rule position [])).map
            fun outcome => (Outcomes.close rule outcome.1,
              outcome.2.record rule position (Outcomes.close rule outcome.1)) := by
  simp only [parseRule, bind, StateT.bind, Except.bind, get, getThe, MonadStateOf.get, StateT.get,
    pure, Except.pure, modify, modifyGet, MonadStateOf.modifyGet]
  cases state.recorded[(rule, position)]? with
  | some found => rfl
  | none =>
    cases grammar rule with
    | none => rfl
    | some element =>
      simp only [StateT.modifyGet, StateT.bind, bind, Except.bind, pure, Except.pure]
      cases element.parts kinds (parseRule grammar kinds depth) position
        (state.record rule position []) <;> rfl

/-- The states of a parser: a new one, or one that has parsed rules before. -/
inductive Used (grammar : Grammar) (kinds : Array Kind) (depth : Nat) : ParserState → Prop where
  | fresh : Used grammar kinds depth {}
  | again (before : Used grammar kinds depth state)
    (ran : parseRule grammar kinds depth rule position state = .ok (found, after)) :
    Used grammar kinds depth after

/-- A rule is parsed as it is read, while every rule still open has more burden. -/
theorem parseRule_performs (free : LeftRecursionFree grammar) (depth : Nat) (rule : Rule)
    (position : Nat) (opened : Set (Rule × Nat))
    (above : ∀ other ∈ opened, burden grammar kinds.size rule position <
      burden grammar kinds.size other.1 other.2) :
    Performs grammar kinds.toList opened (Excuse grammar kinds.size depth rule position)
      (parseRule grammar kinds depth rule position) (reading grammar kinds.toList rule position)
      (tries grammar kinds.toList (.reference rule) position) := by
  induction depth generalizing rule position opened with
  | zero => exact fun _ _ _ => .deep (Nat.zero_le _)
  | succ depth ih =>
    intro earlier state faithful
    rw [parseRule_apply]
    cases known : state.recorded[(rule, position)]? with
    | some found =>
      rcases faithful.recorded rule position found known with inside | ⟨same, tried⟩
      · exact absurd (above _ inside) (Nat.lt_irrefl _)
      · exact ⟨same, by rwa [Set.union_eq_left.mpr tried]⟩
    | none =>
      cases defined : grammar rule with
      | none => exact .undefined .refl defined
      | some element =>
        have calls (target place)
            (called : Calls grammar kinds.size element position target place) :
            Performs grammar kinds.toList (insert (rule, position) opened)
              (Excuse grammar kinds.size (depth + 1) rule position)
              (parseRule grammar kinds depth target place)
              (reading grammar kinds.toList target place)
              (tries grammar kinds.toList (.reference target) place) := by
          exact performs_weaken (fun obstacle => excuse_of_calls free defined called)
            (ih target place _ (burden_lt_opened free defined called above))
        have inside := parts_performs free element position calls earlier _
          (faithful_open faithful rule position [])
        rw [← tries_reference defined] at inside
        simp only
        cases ran : element.parts kinds (parseRule grammar kinds depth) position
            (state.record rule position []) with
        | error obstacle => simpa only [ran, Except.map] using inside
        | ok outcome =>
          obtain ⟨found, after⟩ := outcome
          simp only [ran] at inside
          obtain ⟨rfl, kept⟩ := inside
          simp only [Except.map, ← reading_eq free defined]
          exact ⟨trivial, faithful_close kept Set.subset_union_right⟩

/-- A new parser gives the plain reading of a rule, and knows the farthest tokens asked for in vain
and no others. It gives up only for want of depth or at an undefined rule. -/
theorem parseFrom_performs (free : LeftRecursionFree grammar) (kinds : Array Kind) (depth : Nat)
    (rule : Rule) (position : Nat) :
    match parseFrom grammar kinds depth rule position with
    | .error obstacle => Excuse grammar kinds.size depth rule position obstacle
    | .ok (found, state) =>
      found = reading grammar kinds.toList rule position ∧
        Recalls (tries grammar kinds.toList (.reference rule) position) state := by
  have begun : Faithful grammar kinds.toList ∅ ∅ {} :=
    { noted := fun _ _ member => member.elim
      source := fun _ member => nomatch member
      origin := fun _ => rfl
      recorded := fun _ _ _ present => by simp at present }
  have performs :=
    parseRule_performs free depth rule position ∅ (fun _ member => member.elim) ∅ {} begun
  rw [parseFrom, StateT.run]
  cases ran : parseRule grammar kinds depth rule position {} with
  | error obstacle => simpa only [ran] using performs
  | ok outcome =>
    simp only [ran, Set.empty_union] at performs
    exact ⟨performs.1, performs.2.toRecalls⟩

theorem performs_of_parsed (free : LeftRecursionFree grammar) {kinds : Array Kind}
    {state : ParserState}
    (parsed : parseFrom grammar kinds depth rule position = .ok (found, state)) :
    found = reading grammar kinds.toList rule position ∧
      Recalls (tries grammar kinds.toList (.reference rule) position) state := by
  have performs := parseFrom_performs free kinds depth rule position
  rwa [parsed] at performs

end CypherAssist.Grammar
