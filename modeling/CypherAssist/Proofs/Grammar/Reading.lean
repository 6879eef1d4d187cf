import CypherAssist.Proofs.Grammar.Derives
import CypherAssist.Proofs.Grammar.Outcomes

/-! The plain reading of a grammar: the outcomes of every rule at every position, worked out by
recursion alone, with nothing recorded. It keeps genuine derivations only, and where the grammar
has no left recursion it finds every end that a word or an unfinished reading has. -/
namespace CypherAssist.Grammar
open Token Outcomes Parts

namespace Element

mutual

/-- The outcomes of an element, where `descend` gives those of the rules it refers to. -/
def read (input : List Kind) (descend : Rule → Nat → Outcomes Derivation) : Element → Nat → Parts
  | .token kind, position =>
    match input[position]? with
    | none => [(.cut, [])]
    | some found => if found = kind then [(.upTo (position + 1), [.token position])] else []
  | .reference target, position =>
    (descend target position).map fun outcome => (outcome.1, [outcome.2])
  | .sequence items, position => readInOrder input descend items [(.upTo position, [])]
  | .choice options, position => readAny input descend options position []
  | .optional item, position => (item.read input descend position).merge [(.upTo position, [])]
  | .repeated item, position =>
    iterated (fun start => item.read input descend start) (input.length + 2)
      [(.upTo position, [])] [(position, [])]

/-- The outcomes of elements one after the other, continuing those of the elements before. -/
def readInOrder (input : List Kind) (descend : Rule → Nat → Outcomes Derivation) :
    List Element → Parts → Parts
  | [], current => current
  | item :: rest, current =>
    readInOrder input descend rest (extended (fun start => item.read input descend start) current)

/-- The outcomes of several options, the earlier options first. -/
def readAny (input : List Kind) (descend : Rule → Nat → Outcomes Derivation) :
    List Element → Nat → Parts → Parts
  | [], _, found => found
  | option :: rest, position, found =>
    readAny input descend rest position (found.merge (option.read input descend position))

end

end Element

/-- The outcomes of a rule. `depth` bounds the number of rules open at once. -/
def readRule (grammar : Grammar) (input : List Kind) : Nat → Rule → Nat → Outcomes Derivation
  | 0, _, _ => []
  | depth + 1, rule, position =>
    match grammar rule with
    | none => []
    | some element =>
      Outcomes.close rule (element.read input (readRule grammar input depth) position)

/-- The outcomes of a rule, to a depth that no reading without left recursion reaches. -/
def reading (grammar : Grammar) (input : List Kind) (rule : Rule) (position : Nat) :
    Outcomes Derivation :=
  readRule grammar input (fullDepth input.length) rule position

variable {grammar : Grammar} {input : List Kind} {stop place : Nat}
  {descend : Rule → Nat → Outcomes Derivation}

theorem mem_close {found : Parts} {reach : Reach} {derivation : Derivation} :
    (reach, derivation) ∈ Outcomes.close rule found ↔
      ∃ children, (reach, children) ∈ found ∧ derivation = .node rule (reach = .cut) children := by
  simp only [Outcomes.close, List.mem_map, Prod.mk.injEq, Prod.exists]
  constructor
  · rintro ⟨_, children, member, rfl, rfl⟩
    exact ⟨children, member, rfl⟩
  · rintro ⟨children, member, rfl⟩
    exact ⟨reach, children, member, rfl, rfl⟩

@[simp] theorem reaches_close {found : Parts} {reach : Reach} :
    (Outcomes.close rule found).reaches reach = found.reaches reach :=
  reaches_map _

/-! ## Soundness -/

/-- All outcomes given for a rule are genuine. -/
def Sound (grammar : Grammar) (input : List Kind) (descend : Rule → Nat → Outcomes Derivation) :
    Prop :=
  ∀ rule position reach derivation, (reach, derivation) ∈ descend rule position →
    Derives grammar input (.reference rule) position reach [derivation]

private theorem derives_of_mem_readInOrder {items : List Element}
    (sound : ∀ item ∈ items, ∀ position reach children,
      (reach, children) ∈ item.read input descend position →
      Derives grammar input item position reach children)
    {current : Parts} {reach : Reach} {all : List Derivation}
    (member : (reach, all) ∈ Element.readInOrder input descend items current) :
    (reach = .cut ∧ (.cut, all) ∈ current) ∨ ∃ middle children more,
    (.upTo middle, children) ∈ current ∧
      Derives grammar input (.sequence items) middle reach more ∧ all = children ++ more := by
  induction items generalizing current with
  | nil =>
    cases reach with
    | cut => exact .inl ⟨rfl, member⟩
    | upTo position => exact .inr ⟨position, all, [], member, .empty, by simp⟩
  | cons item rest ih =>
    have head := sound item (by simp)
    rcases ih (fun other inside => sound other (List.mem_cons_of_mem _ inside)) member with
      ⟨rfl, cut⟩ | ⟨middle, children, more, before, derives, rfl⟩
    · rcases mem_extended cut with ⟨-, early⟩ | ⟨position, children, added, before, here, rfl⟩
      · exact .inl ⟨rfl, early⟩
      · exact .inr ⟨position, children, added, before, .sequenceCut (head _ _ _ here), rfl⟩
    · rcases mem_extended before with ⟨impossible, -⟩ | ⟨position, first, added, earlier, here, rfl⟩
      · cases impossible
      · exact .inr ⟨position, first, added ++ more, earlier, .sequence (head _ _ _ here) derives,
          by simp⟩

private theorem derives_of_mem_readAny {options : List Element}
    (sound : ∀ option ∈ options, ∀ position reach children,
      (reach, children) ∈ option.read input descend position →
      Derives grammar input option position reach children)
    {found : Parts} {reach : Reach} {children : List Derivation}
    (member : (reach, children) ∈ Element.readAny input descend options position found) :
    (reach, children) ∈ found ∨
      Derives grammar input (.choice options) position reach children := by
  induction options generalizing found with
  | nil => exact .inl member
  | cons option rest ih =>
    rcases ih (fun other inside => sound other (List.mem_cons_of_mem _ inside)) member
      with merged | later
    · rcases mem_of_mem_merge merged with early | here
      · exact .inl early
      · exact .inr (.choice (by simp) (sound option (by simp) _ _ _ here))
    · cases later with
      | choice inside chosen => exact .inr (.choice (List.mem_cons_of_mem _ inside) chosen)

/-- Reading an element keeps genuine derivations only. -/
theorem derives_of_mem_read (sound : Sound grammar input descend) (element : Element)
    (position : Nat) (reach : Reach) (children : List Derivation)
    (member : (reach, children) ∈ element.read input descend position) :
    Derives grammar input element position reach children := by
  induction element using Element.induction generalizing position reach children with
  | token kind =>
    simp only [Element.read] at member
    split at member
    · rename_i ended
      obtain ⟨rfl, rfl⟩ := Prod.mk.inj (List.mem_singleton.mp member)
      exact .brokenOff ended
    · rename_i token found
      split at member
      · rename_i same
        obtain ⟨rfl, rfl⟩ := Prod.mk.inj (List.mem_singleton.mp member)
        exact .token (same ▸ found)
      · cases member
  | reference target =>
    simp only [Element.read, List.mem_map, Prod.mk.injEq, Prod.exists] at member
    obtain ⟨_, derivation, inside, rfl, rfl⟩ := member
    exact sound _ _ _ _ inside
  | sequence items ih =>
    rcases derives_of_mem_readInOrder ih member
      with ⟨rfl, cut⟩ | ⟨middle, before, more, start, derives, rfl⟩
    · simp at cut
    · obtain ⟨place, rfl⟩ := Prod.mk.inj (List.mem_singleton.mp start)
      cases place
      exact derives
  | choice options ih =>
    rcases derives_of_mem_readAny ih member with impossible | derives
    · cases impossible
    · exact derives
  | optional item ih =>
    rcases mem_of_mem_merge member with inside | nothing
    · exact .taken (ih _ _ _ inside)
    · obtain ⟨rfl, rfl⟩ := Prod.mk.inj (List.mem_singleton.mp nothing)
      exact .skipped
  | repeated item ih =>
    have start (children) (here : children = []) :
        Derives grammar input (.repeated item) position (.upTo position) children := here ▸ .done
    refine iterated_induct (Derives grammar input (.repeated item) position)
      (fun middle before derives next added stepped =>
        derives_repeated_snoc derives (ih _ _ _ stepped))
      _ ?_ ?_ member
    · intro reach children first
      obtain ⟨rfl, empty⟩ := Prod.mk.inj (List.mem_singleton.mp first)
      exact start _ empty
    · intro place children first
      obtain ⟨rfl, empty⟩ := Prod.mk.inj (List.mem_singleton.mp first)
      exact start _ empty

/-- To whatever depth a rule is read, its outcomes are genuine. -/
theorem readRule_sound (grammar : Grammar) (input : List Kind) (depth : Nat) :
    Sound grammar input (readRule grammar input depth) := by
  induction depth with
  | zero =>
    intro rule position reach derivation member
    cases member
  | succ depth ih =>
    intro rule position reach derivation member
    simp only [readRule] at member
    split at member
    · cases member
    · rename_i element defined
      obtain ⟨children, inside, rfl⟩ := mem_close.mp member
      exact .reference defined (derives_of_mem_read ih element position reach children inside)

theorem spans_of_reaches (sound : Sound grammar input descend)
    (reached : (element.read input descend position).reaches (.upTo stop)) :
    Spans grammar input element position stop := by
  obtain ⟨children, member⟩ := reaches_iff.mp reached
  exact spans_of_derives (derives_of_mem_read sound element position _ children member)

/-- What an element reaches lies between where it started and the end of the text. -/
theorem read_stays (sound : Sound grammar input descend) {item : Element} (first : Nat)
    {middle target : Nat} (low : first ≤ middle) (high : middle ≤ max first input.length)
    (stepped : (item.read input descend middle).reaches (.upTo target)) :
    first ≤ target ∧ target ≤ max first input.length := by
  rcases spans_le (spans_of_reaches sound stepped) with rfl | moved <;> omega

/-- A repetition has a round for each position that it may find. -/
theorem missing_lt_rounds (first size : Nat) :
    (missing first (max first size) [(.upTo first, [])]).card < size + 2 := by
  have few := unseen_card_le first (max first size)
  exact Nat.lt_of_le_of_lt (few _) (by omega)

/-- A repetition steps from every position that it reaches. -/
theorem visited_of_reaches_repeated (sound : Sound grammar input descend)
    (reached : ((Element.repeated item).read input descend position).reaches (.upTo middle)) :
    middle ∈ visited (fun start => item.read input descend start) (input.length + 2)
      [(.upTo position, [])] [(position, [])] := by
  rcases visited_of_reaches (fun _ _ => read_stays sound position) _
      (fun _ => missing_lt_rounds position input.length) (by simp) reached
    with ⟨first, notFront⟩ | visits
  · cases reaches_upTo_singleton first
    simp at notFront
  · exact visits

/-- With more rounds a repetition reads no more. -/
theorem iterated_read (sound : Sound grammar input descend) {item : Element} {position : Nat}
    (more : Nat) :
    iterated (fun start => item.read input descend start) (more + (input.length + 2))
      [(.upTo position, [])] [(position, [])] =
        (Element.repeated item).read input descend position :=
  iterated_stable (fun _ _ => read_stays sound position) _
    (fun _ => missing_lt_rounds position input.length) (by simp) more

/-! ## Completeness -/

/-- The outcomes cover every path: each end of a word, and the end of the text where a reading is
still open there. -/
structure Covers (grammar : Grammar) (input : List Kind) (element : Element) (position : Nat)
    (outcomes : Outcomes α) : Prop where
  complete : ∀ stop, Spans grammar input element position stop → outcomes.reaches (.upTo stop)
  unfinished : ∀ place kind, Meets grammar anyRule input element position place kind →
    input[place]? = none →
    outcomes.reaches .cut

private theorem readInOrder_covers (sound : Sound grammar input descend) {items : List Element}
    (each : ∀ item ∈ items, ∀ position,
      (∀ rule place, Calls grammar input.length item position rule place →
      Covers grammar input (.reference rule) place (descend rule place)) →
      Covers grammar input item position (item.read input descend position))
    (current : Parts)
    (calls : ∀ middle, current.reaches (.upTo middle) → ∀ rule place,
      Calls grammar input.length (.sequence items) middle rule place →
      Covers grammar input (.reference rule) place (descend rule place)) :
    (current.reaches .cut → (Element.readInOrder input descend items current).reaches .cut) ∧
      ∀ middle, current.reaches (.upTo middle) →
        Covers grammar input (.sequence items) middle
            (Element.readInOrder input descend items current) := by
  induction items generalizing current with
  | nil =>
    refine ⟨id, fun middle before => ⟨fun stop spans => ?_, fun place kind meets => ?_⟩⟩
    · cases spans
      exact before
    · cases meets
  | cons item rest ih =>
    have here (middle) (before : current.reaches (.upTo middle)) :
        Covers grammar input item middle (item.read input descend middle) :=
      each item (by simp) middle fun rule place called =>
        calls middle before rule place (calls_head called)
    have next (middle target) (before : current.reaches (.upTo middle))
        (spans : Spans grammar input item middle target) :
        (extended (fun start => item.read input descend start) current).reaches (.upTo target) :=
      reaches_extended.mpr (.inr ⟨middle, before, (here middle before).complete target spans⟩)
    obtain ⟨keepsCut, after⟩ := ih (fun other inside => each other (List.mem_cons_of_mem _ inside))
      (extended (fun start => item.read input descend start) current) (by
        intro target reached rule place called
        rcases reaches_extended.mp reached with ⟨impossible, -⟩ | ⟨middle, before, stepped⟩
        · cases impossible
        · exact calls middle before rule place (calls_tail (spans_of_reaches sound stepped) called))
    refine ⟨fun cut => keepsCut (reaches_extended.mpr (.inl ⟨rfl, cut⟩)), fun middle before =>
      ⟨?_, ?_⟩⟩
    · intro stop spans
      cases spans with
      | sequence first second => exact (after _ (next middle _ before first)).complete stop second
    · intro place kind meets ended
      cases meets with
      | head inside =>
        have cut := (here middle before).unfinished place kind inside ended
        exact keepsCut (reaches_extended.mpr (.inr ⟨middle, before, cut⟩))
      | tail first inside =>
        exact (after _ (next middle _ before first)).unfinished place kind inside ended

private theorem reaches_readAny {options : List Element} {found : Parts} {reach : Reach} :
    (Element.readAny input descend options position found).reaches reach ↔
      found.reaches reach ∨ ∃ option ∈ options,
          (option.read input descend position).reaches reach := by
  induction options generalizing found with
  | nil => simp [Element.readAny]
  | cons option rest ih =>
    rw [Element.readAny, ih, reaches_merge, Bool.or_eq_true]
    simp only [List.mem_cons, exists_eq_or_imp, or_assoc]

/-- Outcomes that are closed under complete readings of an item cover its repetition. -/
private theorem covers_repeated {outcomes : Parts} {step : Nat → Parts}
    (start : outcomes.reaches (.upTo position))
    (closed : ∀ middle reach, outcomes.reaches (.upTo middle) → (step middle).reaches reach →
      outcomes.reaches reach)
    (inside : ∀ middle, outcomes.reaches (.upTo middle) →
      Covers grammar input item middle (step middle)) :
    Covers grammar input (.repeated item) position outcomes := by
  have reached (middle) (spans : Spans grammar input (.repeated item) position middle) :
      outcomes.reaches (.upTo middle) := by
    induction spans_repeated_iff.mp spans with
    | refl => exact start
    | tail before last ih =>
      have here := ih (spans_repeated_iff.mpr before)
      exact closed _ _ here ((inside _ here).complete _ last)
  refine ⟨reached, fun place kind meets ended => ?_⟩
  obtain ⟨middle, spans, below⟩ := meets_repeated_iff.mp meets
  have here := reached middle spans
  exact closed _ _ here ((inside middle here).unfinished place kind below ended)

/-- Where the rules that an element enters are read completely, so is the element. -/
theorem read_covers (sound : Sound grammar input descend) (element : Element) (position : Nat)
    (calls : ∀ rule place, Calls grammar input.length element position rule place →
      Covers grammar input (.reference rule) place (descend rule place)) :
    Covers grammar input element position (element.read input descend position) := by
  induction element using Element.induction generalizing position with
  | token kind =>
    refine ⟨fun stop spans => ?_, fun place asked meets ended => ?_⟩
    · cases spans with
      | token found => simp [Element.read, found]
    · cases meets with
      | token => simp [Element.read, ended]
  | reference target =>
    have below := calls target position calls_reference
    refine ⟨fun stop spans => ?_, fun place kind meets ended => ?_⟩
    · simpa only [Element.read, reaches_map] using below.complete stop spans
    · simpa only [Element.read, reaches_map] using below.unfinished place kind meets ended
  | sequence items ih =>
    refine (readInOrder_covers sound ih _ (fun middle start rule place called => ?_)).2 position
      (by simp)
    cases reaches_upTo_singleton start
    exact calls rule place called
  | choice options ih =>
    have inside (option) (member : option ∈ options) :
        Covers grammar input option position (option.read input descend position) :=
      ih option member position fun rule place called =>
        calls rule place (calls_choice member called)
    refine ⟨fun stop spans => ?_, fun place kind meets ended => ?_⟩
    · cases spans with
      | choice member chosen =>
        exact reaches_readAny.mpr (.inr ⟨_, member, (inside _ member).complete stop chosen⟩)
    · cases meets with
      | choice member below =>
        exact reaches_readAny.mpr (.inr
          ⟨_, member, (inside _ member).unfinished place kind below ended⟩)
  | optional item ih =>
    have inside := ih position fun rule place called => calls rule place (calls_optional called)
    refine ⟨fun stop spans => ?_, fun place kind meets ended => ?_⟩
    · rw [Element.read, reaches_merge, Bool.or_eq_true]
      cases spans with
      | skipped => exact .inr (by simp)
      | taken taken => exact .inl (inside.complete stop taken)
    · rw [Element.read, reaches_merge, Bool.or_eq_true]
      cases meets with
      | optional below => exact .inl (inside.unfinished place kind below ended)
  | repeated item ih =>
    -- Every position that is reached is stepped from, so the outcomes are closed under steps.
    refine covers_repeated (reaches_iterated_of_reaches _ (by simp))
      (fun middle reach reached stepped =>
        reaches_iterated_of_visited _ (visited_of_reaches_repeated sound reached) stepped)
      fun middle reached => ih middle fun rule place called => ?_
    exact calls rule place (calls_repeated (spans_of_reaches sound reached) called)

/-! ## Depth -/

private theorem readInOrder_congr {other : Rule → Nat → Outcomes Derivation}
    (sound : Sound grammar input descend) {items : List Element}
    (each : ∀ item ∈ items, ∀ position,
      (∀ rule place, Calls grammar input.length item position rule place →
      descend rule place = other rule place) →
      item.read input descend position = item.read input other position)
    (current : Parts)
    (calls : ∀ middle, current.reaches (.upTo middle) → ∀ rule place,
      Calls grammar input.length (.sequence items) middle rule place →
      descend rule place = other rule place) :
    Element.readInOrder input descend items current =
        Element.readInOrder input other items current := by
  induction items generalizing current with
  | nil => rfl
  | cons item rest ih =>
    have step : extended (fun start => item.read input descend start) current =
        extended (fun start => item.read input other start) current :=
      extended_congr fun middle before => each item (by simp) middle fun rule place called =>
        calls middle before rule place (calls_head called)
    rw [Element.readInOrder, Element.readInOrder, ← step]
    refine ih (fun later inside => each later (List.mem_cons_of_mem _ inside)) _ ?_
    intro target reached rule place called
    rcases reaches_extended.mp reached with ⟨impossible, -⟩ | ⟨middle, before, stepped⟩
    · cases impossible
    · exact calls middle before rule place (calls_tail (spans_of_reaches sound stepped) called)

private theorem readAny_congr {other : Rule → Nat → Outcomes Derivation} {options : List Element}
    (each : ∀ option ∈ options, option.read input descend position =
      option.read input other position)
    (found : Parts) :
    Element.readAny input descend options position found =
        Element.readAny input other options position found := by
  induction options generalizing found with
  | nil => rfl
  | cons option rest ih =>
    rw [Element.readAny, Element.readAny, each option (by simp)]
    exact ih (fun later inside => each later (List.mem_cons_of_mem _ inside)) _

/-- Reading an element depends only on the outcomes of the rules that it enters. -/
theorem read_congr {other : Rule → Nat → Outcomes Derivation} (sound : Sound grammar input descend)
    (element : Element) (position : Nat)
    (calls : ∀ rule place, Calls grammar input.length element position rule place →
      descend rule place = other rule place) :
    element.read input descend position = element.read input other position := by
  induction element using Element.induction generalizing position with
  | token kind => rfl
  | reference target => rw [Element.read, Element.read, calls target position calls_reference]
  | sequence items ih =>
    refine readInOrder_congr sound ih _ fun middle start rule place called => ?_
    cases reaches_upTo_singleton start
    exact calls rule place called
  | choice options ih =>
    exact readAny_congr (fun option member => ih option member position fun rule place called =>
      calls rule place (calls_choice member called)) _
  | optional item ih =>
    rw [Element.read, Element.read, ih position fun rule place called =>
      calls rule place (calls_optional called)]
  | repeated item ih =>
    refine iterated_congr _ fun middle visits => ih middle fun rule place called => ?_
    have reached : ((Element.repeated item).read input descend position).reaches (.upTo middle) :=
      reaches_of_visited _ (by simp) visits
    exact calls rule place (calls_repeated (spans_of_reaches sound reached) called)

/-- The rules that a rule enters have less burden. -/
theorem burden_lt_of_calls (free : LeftRecursionFree grammar)
    (defined : grammar rule = some element)
    (called : Calls grammar size element position target place) :
    burden grammar size target place < burden grammar size rule position :=
  burden_decreases free (called.2.imp_right fun here => ⟨here.1, element, defined, here.2⟩)

/-- Rules that have less burden than all that are open keep so while they enter each other. -/
theorem burden_lt_opened (free : LeftRecursionFree grammar) {opened : Set (Rule × Nat)}
    (defined : grammar rule = some element)
    (called : Calls grammar size element position target place)
    (above : ∀ other ∈ opened, burden grammar size rule position <
      burden grammar size other.1 other.2) :
    ∀ other ∈ insert (rule, position) opened,
      burden grammar size target place < burden grammar size other.1 other.2 := by
  have less := burden_lt_of_calls free defined called
  intro other member
  rcases Set.mem_insert_iff.mp member with rfl | member
  · exact less
  · exact Nat.lt_trans less (above other member)

/-- A depth beyond the burden of a rule makes no difference. -/
theorem readRule_stable (free : LeftRecursionFree grammar) {depth other : Nat} {rule : Rule}
    {position : Nat} (deep : burden grammar input.length rule position < depth)
    (alsoDeep : burden grammar input.length rule position < other) :
    readRule grammar input depth rule position = readRule grammar input other rule position := by
  induction depth generalizing other rule position with
  | zero => exact absurd deep (Nat.not_lt_zero _)
  | succ depth ih =>
    cases other with
    | zero => exact absurd alsoDeep (Nat.not_lt_zero _)
    | succ other =>
      simp only [readRule]
      cases defined : grammar rule with
      | none => rfl
      | some element =>
        simp only
        rw [read_congr (readRule_sound grammar input depth) element position
          fun target place called => ?_]
        have less := burden_lt_of_calls free defined called
        exact ih (by omega) (by omega)

theorem burden_lt_fullDepth (free : LeftRecursionFree grammar) (size : Nat) (rule : Rule)
    (position : Nat) :
    burden grammar size rule position + 1 < fullDepth size := by
  have bound := burden_lt free size rule position
  have wide : Rule.all.length * (size - position + 1) ≤ Rule.all.length * (size + 2) :=
    Nat.mul_le_mul_left _ (by omega)
  unfold fullDepth
  omega

/-- The reading of a rule is that of its element, with the rules below read in the same way. -/
theorem reading_eq (free : LeftRecursionFree grammar) (defined : grammar rule = some element) :
    reading grammar input rule position =
      Outcomes.close rule (element.read input (reading grammar input) position) := by
  have deep := burden_lt_fullDepth free input.length rule position
  have unfolded : reading grammar input rule position = Outcomes.close rule
      (element.read input (readRule grammar input
          (burden grammar input.length rule position)) position) := by
    rw [reading, readRule_stable free (by omega) (Nat.lt_succ_self _), readRule, defined]
  rw [unfolded, read_congr (readRule_sound grammar input _) element position
    fun target place called => ?_]
  exact readRule_stable free (burden_lt_of_calls free defined called)
    (Nat.lt_of_succ_lt (burden_lt_fullDepth free ..))

theorem reading_sound (grammar : Grammar) (input : List Kind) :
    Sound grammar input (reading grammar input) :=
  readRule_sound grammar input _

/-- Without left recursion a rule is read completely. -/
theorem reading_covers (free : LeftRecursionFree grammar) (rule : Rule) (position : Nat) :
    Covers grammar input (.reference rule) position (reading grammar input rule position) := by
  induction h : burden grammar input.length rule position using Nat.strong_induction_on
      generalizing rule position with
  | _ weight ih =>
    subst h
    cases defined : grammar rule with
    | none =>
      refine ⟨fun stop spans => ?_, fun place kind meets _ => ?_⟩
      · cases spans with
        | reference same => rw [defined] at same; cases same
      · cases meets with
        | reference _ same => rw [defined] at same; cases same
    | some element =>
      have inside := read_covers (reading_sound grammar input) element position
          fun target place called =>
        ih _ (burden_lt_of_calls free defined called) target place rfl
      rw [reading_eq free defined]
      refine ⟨fun stop spans => ?_, fun place kind meets ended => ?_⟩
      · cases spans with
        | reference same body =>
          cases defined.symm.trans same
          simpa only [reaches_close] using inside.complete stop body
      · cases meets with
        | reference _ same below =>
          cases defined.symm.trans same
          simpa only [reaches_close] using inside.unfinished place kind below ended

/-- The plain reading reaches the ends of words and no others. -/
theorem reading_reaches_iff (free : LeftRecursionFree grammar) :
    (reading grammar input rule position).reaches (.upTo stop) ↔
      Spans grammar input (.reference rule) position stop := by
  constructor
  · intro reached
    obtain ⟨derivation, member⟩ := reaches_iff.mp reached
    exact spans_of_derives (reading_sound grammar input _ _ _ _ member)
  · exact (reading_covers free rule position).complete stop

/-- The plain reading breaks off exactly where a token is asked for behind the end of the text. -/
theorem reading_cut_iff (free : LeftRecursionFree grammar) :
    (reading grammar input rule position).reaches .cut ↔
      ∃ place kind, Meets grammar anyRule input (.reference rule) position place kind ∧
          input[place]? = none := by
  constructor
  · intro reached
    obtain ⟨derivation, member⟩ := reaches_iff.mp reached
    exact meets_of_derives_cut (reading_sound grammar input _ _ _ _ member)
  · rintro ⟨place, kind, meets, ended⟩
    exact (reading_covers free rule position).unfinished place kind meets ended

end CypherAssist.Grammar
