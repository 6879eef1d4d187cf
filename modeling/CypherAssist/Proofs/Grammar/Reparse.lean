import CypherAssist.Proofs.Grammar.Memory

/-! Parsing the tokens before a misfit once more. Where no path gets beyond a limit, the text up to
the limit is parsed step by step as the whole text was, with the same rules open at each step. So
it needs no more depth, and it reaches the same ends; besides, readings break off at the limit. -/
namespace CypherAssist.Grammar
open Token Outcomes Parts

/-! ## Paths that stop at a limit -/

/-- No path through the element gets beyond the limit: what it asks for there is not there. -/
def Halts (grammar : Grammar) (input : List Kind) (limit : Nat) (element : Element)
    (position : Nat) : Prop :=
  ∀ kind, Meets grammar anyRule input element position limit kind → input[limit]? ≠ some kind

variable {grammar : Grammar} {input : List Kind} {limit start stop : Nat}

/-- A path that gets beyond the limit reads the token there. -/
theorem meets_of_spans_beyond (spans : Spans grammar input element start stop)
    (before : start ≤ limit) (beyond : limit < stop) :
    ∃ kind, Meets grammar anyRule input element start limit kind ∧ input[limit]? = some kind := by
  induction spans with
  | @token position kind found =>
    obtain rfl : position = limit := by omega
    exact ⟨kind, .token, found⟩
  | reference defined _ ih =>
    obtain ⟨kind, meets, found⟩ := ih before beyond
    exact ⟨kind, .reference trivial defined meets, found⟩
  | empty | skipped | done => omega
  | @sequence _ _ middle _ _ first _ ihFirst ihSecond =>
    rcases Nat.lt_or_ge limit middle with inFirst | behind
    · obtain ⟨kind, meets, found⟩ := ihFirst before inFirst
      exact ⟨kind, .head meets, found⟩
    · obtain ⟨kind, meets, found⟩ := ihSecond behind beyond
      exact ⟨kind, .tail first meets, found⟩
  | choice member _ ih =>
    obtain ⟨kind, meets, found⟩ := ih before beyond
    exact ⟨kind, .choice member meets, found⟩
  | taken _ ih =>
    obtain ⟨kind, meets, found⟩ := ih before beyond
    exact ⟨kind, .optional meets, found⟩
  | @again _ _ middle _ first _ ihFirst ihSecond =>
    rcases Nat.lt_or_ge limit middle with inFirst | behind
    · obtain ⟨kind, meets, found⟩ := ihFirst before inFirst
      exact ⟨kind, .first meets, found⟩
    · obtain ⟨kind, meets, found⟩ := ihSecond behind beyond
      exact ⟨kind, .later first meets, found⟩

theorem le_limit_of_spans (halts : Halts grammar input limit element start) (before : start ≤ limit)
    (spans : Spans grammar input element start stop) : stop ≤ limit := by
  by_contra beyond
  obtain ⟨kind, meets, found⟩ := meets_of_spans_beyond spans before (Nat.lt_of_not_le beyond)
  exact halts kind meets found

theorem halts_reference (defined : grammar rule = some element)
    (halts : Halts grammar input limit (.reference rule) position) :
    Halts grammar input limit element position :=
  fun kind meets => halts kind (.reference trivial defined meets)

theorem halts_head (halts : Halts grammar input limit (.sequence (item :: rest)) position) :
    Halts grammar input limit item position :=
  fun kind meets => halts kind (.head meets)

theorem halts_tail (halts : Halts grammar input limit (.sequence (item :: rest)) position)
    (before : Spans grammar input item position middle) :
    Halts grammar input limit (.sequence rest) middle :=
  fun kind meets => halts kind (.tail before meets)

theorem halts_choice (halts : Halts grammar input limit (.choice options) position)
    (member : option ∈ options) :
    Halts grammar input limit option position :=
  fun kind meets => halts kind (.choice member meets)

theorem halts_optional (halts : Halts grammar input limit (.optional item) position) :
    Halts grammar input limit item position :=
  fun kind meets => halts kind (.optional meets)

theorem halts_repeated (halts : Halts grammar input limit (.repeated item) position)
    (before : Spans grammar input (.repeated item) position middle) :
    Halts grammar input limit item middle := by
  intro kind meets
  generalize same : Element.repeated item = element at before
  induction before with
  | done => cases same; exact halts kind (.first meets)
  | again first _ _ ih =>
    cases same
    exact ih (fun other inside => halts other (.later first inside)) meets rfl
  | _ => cases same

/-! ## Outcomes without those cut short -/

/-- The outcomes that end in front of a position. -/
def trim (found : Outcomes α) : Outcomes α := found.filter fun outcome => outcome.1 ≠ .cut

theorem reaches_trim {found : Outcomes α} :
    (trim found).reaches (.upTo stop) = found.reaches (.upTo stop) := by
  rw [Bool.eq_iff_iff, reaches_iff, reaches_iff]
  simp [trim]

@[simp] theorem trim_append (first second : Outcomes α) :
    trim (first ++ second) = trim first ++ trim second :=
  List.filter_append ..

theorem trim_merge (earlier later : Outcomes α) :
    trim (earlier.merge later) = (trim earlier).merge (trim later) := by
  simp only [merge, trim_append, List.append_cancel_left_eq]
  simp only [trim, List.filter_filter]
  refine List.filter_congr fun outcome _ => ?_
  obtain ⟨reach, found⟩ := outcome
  cases reach with
  | cut => simp
  | upTo stop =>
    have same : Outcomes.reaches (earlier.filter fun outcome => outcome.1 ≠ .cut) (.upTo stop) =
        earlier.reaches (.upTo stop) := reaches_trim
    simp only [ne_eq, reduceCtorEq, not_false_eq_true, decide_true, Bool.true_and, Bool.and_true]
      at same ⊢
    rw [same]

theorem trim_map (found : Outcomes α) (f : Reach × α → β) :
    trim (found.map fun outcome => (outcome.1, f outcome)) =
      (trim found).map fun outcome => (outcome.1, f outcome) := by
  simp only [trim, List.filter_map, Function.comp_def]

theorem trim_behind (children : List Derivation) (more : Parts) :
    trim (behind children more) = behind children (trim more) :=
  trim_map ..

theorem trim_close (rule : Rule) (found : Parts) :
    trim (Outcomes.close rule found) = Outcomes.close rule (trim found) :=
  trim_map ..

theorem continuing_trim (found : Parts) :
    (trim found).filterMap continuing? = found.filterMap continuing? := by
  induction found with
  | nil => rfl
  | cons outcome rest ih =>
    obtain ⟨reach, children⟩ := outcome
    cases reach with
    | cut => exact ih
    | upTo position => exact congrArg ((position, children) :: ·) ih

/-! ## Running side by side -/

/-- Both parsers have the same rules recorded, one of them without outcomes cut short, and the ends
recorded are those of paths. -/
structure Mirrors (grammar : Grammar) (input : List Kind) (whole short : ParserState) : Prop where
  same : ∀ (rule : Rule) (position : Nat),
    whole.recorded[(rule, position)]? = (short.recorded[(rule, position)]?).map trim
  sound : ∀ rule position found, whole.recorded[(rule, position)]? = some found →
    ∀ stop, found.reaches (.upTo stop) → Spans grammar input (.reference rule) position stop

/-- Whenever the first action succeeds so does the second, with related values. -/
def Follows (grammar : Grammar) (input : List Kind) (related : α → β → Prop) (whole : ParserM α)
    (short : ParserM β) : Prop :=
  ∀ state other, Mirrors grammar input state other → ∀ found after,
    whole state = .ok (found, after) →
    ∃ seen later, short other = .ok (seen, later) ∧ related found seen ∧
      Mirrors grammar input after later

/-- The same outcomes but for those cut short, with ends of a kind given. -/
def Agrees (ends : Nat → Prop) (found seen : Outcomes α) : Prop :=
  found = trim seen ∧ ∀ stop, found.reaches (.upTo stop) → ends stop

theorem follows_pure {related : α → β → Prop} {found : α} {seen : β} (holds : related found seen) :
    Follows grammar input related (pure found) (pure seen) := by
  intro state other mirrors result after ran
  cases ran
  exact ⟨seen, other, rfl, holds, mirrors⟩

theorem follows_mono {related wider : α → β → Prop} {whole : ParserM α} {short : ParserM β}
    (into : ∀ found seen, related found seen → wider found seen)
    (follows : Follows grammar input related whole short) :
    Follows grammar input wider whole short := by
  intro state other mirrors result after ran
  obtain ⟨seen, later, also, holds, kept⟩ := follows state other mirrors result after ran
  exact ⟨seen, later, also, into result seen holds, kept⟩

theorem follows_bind {related : α → β → Prop} {outcome : γ → δ → Prop} {whole : ParserM α}
    {short : ParserM β} {next : α → ParserM γ} {other : β → ParserM δ}
    (first : Follows grammar input related whole short)
    (second : ∀ found seen, related found seen →
      Follows grammar input outcome (next found) (other seen)) :
    Follows grammar input outcome (whole >>= next) (short >>= other) := by
  intro state shortState mirrors result after ran
  simp only [bind, StateT.bind, Except.bind] at ran ⊢
  cases one : whole state with
  | error obstacle => rw [one] at ran; cases ran
  | ok middle =>
    rw [one] at ran
    obtain ⟨seen, later, also, holds, kept⟩ := first state shortState mirrors _ _ one
    rw [also]
    exact second _ _ holds _ _ kept _ _ ran

theorem follows_expect {related : α → β → Prop} {found : α} {seen : β} (position : Nat)
    (kind : Kind) (holds : related found seen) :
    Follows grammar input related (do modify (·.expect position kind); return found)
      (do modify (·.expect position kind); return seen) := by
  intro state other mirrors result after ran
  cases ran
  refine ⟨seen, other.expect position kind, rfl, holds, fun rule place => ?_,
    fun rule place known present => ?_⟩
  · rw [recorded_expect, recorded_expect]
    exact mirrors.same rule place
  · rw [recorded_expect] at present
    exact mirrors.sound rule place known present

theorem mirrors_record {state other : ParserState} {found seen : Outcomes Derivation}
    (mirrors : Mirrors grammar input state other)
    (agrees : Agrees (Spans grammar input (.reference rule) position) found seen) :
    Mirrors grammar input (state.record rule position found) (other.record rule position seen) := by
  refine ⟨fun target place => ?_, fun target place known present => ?_⟩
  · rw [getElem?_recorded_record, getElem?_recorded_record]
    split
    · rw [agrees.1, Option.map_some]
    · exact mirrors.same target place
  · rw [getElem?_recorded_record] at present
    split at present
    · rename_i same
      cases same
      cases present
      exact agrees.2
    · exact mirrors.sound target place known present

/-- A loop over outcomes passes by those cut short. -/
theorem follows_foldlM_trim {related : β → γ → Prop} {current : Outcomes α}
    {step : β → Reach × α → ParserM β} {other : γ → Reach × α → ParserM γ}
    (passes : ∀ found seen value, related found seen →
      Follows grammar input related (pure found) (other seen (.cut, value)))
    (each : ∀ position value, (.upTo position, value) ∈ current → ∀ found seen, related found seen →
      Follows grammar input related (step found (.upTo position, value))
      (other seen (.upTo position, value)))
    {start : β} {first : γ} (holds : related start first) :
    Follows grammar input related ((trim current).foldlM step start)
      (current.foldlM other first) := by
  induction current generalizing start first with
  | nil => exact follows_pure holds
  | cons outcome rest ih =>
    obtain ⟨reach, value⟩ := outcome
    have later (found seen) (holds : related found seen) :
        Follows grammar input related ((trim rest).foldlM step found) (rest.foldlM other seen) :=
      ih (fun position value inside => each position value (List.mem_cons_of_mem _ inside)) holds
    cases reach with
    | cut =>
      rw [show trim ((.cut, value) :: rest) = trim rest from rfl, List.foldlM_cons,
        ← pure_bind start fun found => (trim rest).foldlM step found]
      exact follows_bind (passes start first value holds) later
    | upTo position =>
      have kept :
          trim ((.upTo position, value) :: rest) = (.upTo position, value) :: trim rest := rfl
      rw [kept, List.foldlM_cons, List.foldlM_cons]
      exact follows_bind (each position value (by simp) start first holds) later

/-- Merging one more step keeps agreement. -/
theorem agrees_merge {ends : Nat → Prop} {found seen more later : Outcomes α}
    (earlier : Agrees ends found seen) (added : Agrees ends more later) :
    Agrees ends (found.merge more) (seen.merge later) := by
  refine ⟨by rw [trim_merge, ← earlier.1, ← added.1], fun stop reached => ?_⟩
  rw [reaches_merge, Bool.or_eq_true] at reached
  exact reached.elim (earlier.2 stop) (added.2 stop)

theorem agrees_behind {ends : Nat → Prop} {found seen : Parts} (children : List Derivation)
    (agrees : Agrees ends found seen) :
    Agrees ends (behind children found) (behind children seen) :=
  ⟨by rw [trim_behind, ← agrees.1], fun stop reached =>
    agrees.2 stop (by rwa [reaches_behind] at reached)⟩

theorem agrees_mono {ends wider : Nat → Prop} {found seen : Outcomes α}
    (agrees : Agrees ends found seen) (into : ∀ stop, ends stop → wider stop) :
    Agrees wider found seen :=
  ⟨agrees.1, fun stop reached => into stop (agrees.2 stop reached)⟩

variable {step other : Nat → ParserM Parts} {leads : Nat → Nat → Prop}

theorem extend_follows (current : Parts)
    (each : ∀ position, current.reaches (.upTo position) →
      Follows grammar input (Agrees (leads position)) (step position) (other position)) :
    Follows grammar input (Agrees fun stop => ∃ middle, current.reaches (.upTo middle) ∧
      leads middle stop)
      (extend step (trim current)) (extend other current) := by
  refine follows_foldlM_trim (fun found seen children agrees => ?_)
    (fun position children inside found seen agrees => ?_)
    ⟨rfl, fun stop reached => by simp at reached⟩
  · have nothing : trim [(Reach.cut, children)] = [] := rfl
    refine follows_pure ⟨by rw [trim_merge, nothing, ← agrees.1]; simp [merge], agrees.2⟩
  · have reached : current.reaches (.upTo position) := reaches_iff.mpr ⟨children, inside⟩
    refine follows_bind (each position reached) fun more later stepped => follows_pure ?_
    exact agrees_merge agrees (agrees_behind children
      (agrees_mono stepped fun stop next => ⟨position, reached, next⟩))

/-- What a round of a repetition may do: the outcomes grow by new ends, which steps lead to. -/
private def Grows (leads : Nat → Nat → Prop) (known : Parts) (origins : List Nat)
    (found seen : Parts) : Prop :=
  found = trim seen ∧ ∃ more, seen = known ++ more ∧ ∀ outcome ∈ more,
    known.reaches outcome.1 = false ∧
    ∀ stop, outcome.1 = .upTo stop → ∃ position ∈ origins, leads position stop

private theorem grows_merge {known found seen more later : Parts} {origins : List Nat}
    {position : Nat} (grows : Grows leads known origins found seen) (inside : position ∈ origins)
    (added : Agrees (leads position) more later) :
    Grows leads known origins (found.merge more) (seen.merge later) := by
  obtain ⟨same, all, rfl, new⟩ := grows
  refine ⟨by rw [trim_merge, ← same, ← added.1],
    all ++ later.filter fun outcome => !(known ++ all).reaches outcome.1,
    by rw [merge, List.append_assoc], fun outcome member => ?_⟩
  rcases List.mem_append.mp member with early | late
  · exact new outcome early
  · obtain ⟨member, unseen⟩ := List.mem_filter.mp late
    simp only [reaches, List.any_append, Bool.not_eq_true', Bool.or_eq_false_iff] at unseen
    refine ⟨unseen.1, fun stop ended => ⟨position, inside, added.2 stop ?_⟩⟩
    rw [added.1, reaches_trim, reaches_iff, ← ended]
    exact ⟨outcome.2, member⟩

private theorem round_follows {known : Parts} {frontier : List (Nat × List Derivation)}
    (each : ∀ position ∈ frontier.map (·.1),
      Follows grammar input (Agrees (leads position)) (step position) (other position)) :
    Follows grammar input (Grows leads known (frontier.map (·.1)))
      (frontier.foldlM (fun grown outcome =>
        do return grown.merge (behind outcome.2 (← step outcome.1))) (trim known))
      (frontier.foldlM (fun grown outcome =>
        do return grown.merge (behind outcome.2 (← other outcome.1))) known) := by
  -- The loop keeps `Grows` with regard to all positions of the frontier, not only those left.
  suffices loop : ∀ rest : List (Nat × List Derivation), (∀ outcome ∈ rest, outcome ∈ frontier) →
      ∀ found seen, Grows leads known (frontier.map (·.1)) found seen →
        Follows grammar input (Grows leads known (frontier.map (·.1)))
          (rest.foldlM (fun grown outcome =>
            do return grown.merge (behind outcome.2 (← step outcome.1))) found)
          (rest.foldlM (fun grown outcome =>
            do return grown.merge (behind outcome.2 (← other outcome.1))) seen) by
    exact loop frontier (fun _ inside => inside) _ _ ⟨rfl, [], by simp, by simp⟩
  intro rest
  induction rest with
  | nil => exact fun _ found seen grows => follows_pure grows
  | cons outcome rest ih =>
    intro inside found seen grows
    have here : outcome.1 ∈ frontier.map (·.1) :=
      List.mem_map.mpr ⟨outcome, inside outcome (by simp), rfl⟩
    rw [List.foldlM_cons, List.foldlM_cons]
    refine follows_bind (follows_bind (each _ here) fun more later stepped => follows_pure ?_)
      (ih fun _ member => inside _ (List.mem_cons_of_mem _ member))
    exact grows_merge grows here (agrees_behind _ stepped)

private theorem iterate_nil {rounds : Nat} {known : Parts} :
    iterate step rounds known [] = pure known := by
  cases rounds <;> rfl

/-- A repetition takes the same rounds in both parsers, where both allow for enough of them. -/
theorem iterate_follows {first last : Nat} {good : Nat → Prop}
    (inRange : ∀ position, good position → first ≤ position ∧ position ≤ last)
    (stays : ∀ position target, good position → leads position target → good target)
    (each : ∀ position, good position →
      Follows grammar input (Agrees (leads position)) (step position) (other position))
    (rounds moreRounds : Nat) (known : Parts) (frontier : List (Nat × List Derivation))
    (enough : frontier ≠ [] →
      (missing first last known).card < rounds ∧ (missing first last known).card < moreRounds)
    (front : ∀ position ∈ frontier.map (·.1), good position)
    (reached : ∀ stop, known.reaches (.upTo stop) → good stop) :
    Follows grammar input (Agrees good) (iterate step rounds (trim known) frontier)
      (iterate other moreRounds known frontier) := by
  induction rounds generalizing moreRounds known frontier with
  | zero =>
    cases frontier with
    | nil =>
      rw [iterate_nil, iterate_nil]
      exact follows_pure ⟨rfl, fun stop found => reached stop (by rwa [reaches_trim] at found)⟩
    | cons outcome others => exact absurd (enough (by simp)).1 (Nat.not_lt_zero _)
  | succ rounds ih =>
    cases frontier with
    | nil =>
      rw [iterate_nil, iterate_nil]
      exact follows_pure ⟨rfl, fun stop found => reached stop (by rwa [reaches_trim] at found)⟩
    | cons outcome others =>
      cases moreRounds with
      | zero => exact absurd (enough (by simp)).2 (Nat.not_lt_zero _)
      | succ moreRounds =>
        refine follows_bind (round_follows fun position inside =>
          each position (front position inside)) ?_
        rintro found seen ⟨rfl, more, rfl, new⟩
        have goodMore (stop) (inside : Outcomes.reaches more (.upTo stop)) : good stop := by
          obtain ⟨children, member⟩ := reaches_iff.mp inside
          obtain ⟨position, origin, leading⟩ := (new _ member).2 stop rfl
          exact stays position stop (front position origin) leading
        have fresh : ((trim (known ++ more)).drop (trim known).length).filterMap continuing? =
            ((known ++ more).drop known.length).filterMap continuing? := by
          rw [trim_append, List.drop_left, List.drop_left, continuing_trim]
        rw [fresh, List.drop_left]
        have reachedMore (position) (inside : position ∈ (more.filterMap continuing?).map (·.1)) :
            Outcomes.reaches more (.upTo position) := by
          obtain ⟨next, inFrontier, rfl⟩ := List.mem_map.mp inside
          obtain ⟨⟨reach, children⟩, member, continues⟩ := List.mem_filterMap.mp inFrontier
          cases reach with
          | cut => cases continues
          | upTo place => cases continues; exact reaches_iff.mpr ⟨children, member⟩
        refine ih moreRounds (known ++ more) (more.filterMap continuing?) (fun some => ?_)
          (fun position inside => goodMore position (reachedMore position inside))
          (fun stop inside => ?_)
        · obtain ⟨next, member⟩ := List.exists_mem_of_ne_nil _ some
          have found := reachedMore next.1 (List.mem_map.mpr ⟨next, member, rfl⟩)
          obtain ⟨children, inMore⟩ := reaches_iff.mp found
          have range := inRange next.1 (goodMore next.1 found)
          have keeps (place) (early : known.reaches (.upTo place)) :
              Outcomes.reaches (known ++ more) (.upTo place) := by
            rw [reaches, List.any_append, Bool.or_eq_true]
            exact .inl early
          have fewer := missing_lt keeps range.1 range.2
            (reaches_iff.mpr ⟨children, List.mem_append_right _ inMore⟩)
            (new _ inMore).1
          have before := enough (by simp)
          omega
        · rw [reaches, List.any_append, Bool.or_eq_true] at inside
          exact inside.elim (reached stop) (goodMore stop)

variable {kinds : Array Kind} {descend descendShort : Rule → Nat → ParserM (Outcomes Derivation)}

/-- Parsing the rule up to the limit follows parsing it on the whole text. -/
private abbrev RuleFollows (grammar : Grammar) (kinds : Array Kind) (limit : Nat)
    (descend descendShort : Rule → Nat → ParserM (Outcomes Derivation)) : Prop :=
  ∀ rule place, place ≤ limit → Halts grammar kinds.toList limit (.reference rule) place →
    Follows grammar kinds.toList (Agrees (Spans grammar kinds.toList (.reference rule) place))
      (descend rule place)
      (descendShort rule place)

private abbrev ElementFollows (grammar : Grammar) (kinds : Array Kind) (limit : Nat)
    (descend descendShort : Rule → Nat → ParserM (Outcomes Derivation)) (element : Element) :
    Prop :=
  ∀ position, position ≤ limit → Halts grammar kinds.toList limit element position →
    Follows grammar kinds.toList (Agrees (Spans grammar kinds.toList element position))
      (element.parts kinds descend position)
      (element.parts (kinds.take limit) descendShort position)

private theorem partsInOrder_follows {items : List Element}
    (each : ∀ item ∈ items, ElementFollows grammar kinds limit descend descendShort item)
    (current : Parts)
    (starts : ∀ middle, current.reaches (.upTo middle) → middle ≤ limit ∧
      Halts grammar kinds.toList limit (.sequence items) middle) :
    Follows grammar kinds.toList
      (Agrees fun stop => ∃ middle, current.reaches (.upTo middle) ∧
        Spans grammar kinds.toList (.sequence items) middle stop)
      (Element.partsInOrder kinds descend items (trim current))
      (Element.partsInOrder (kinds.take limit) descendShort items current) := by
  induction items generalizing current with
  | nil =>
    refine follows_pure ⟨rfl, fun stop reached => ?_⟩
    rw [reaches_trim] at reached
    exact ⟨stop, reached, .empty⟩
  | cons item rest ih =>
    have one := extend_follows current fun middle reached =>
      each item (by simp) middle (starts middle reached).1 (halts_head (starts middle reached).2)
    refine follows_bind one fun found seen agrees => ?_
    obtain ⟨rfl, ends⟩ := agrees
    have later := ih (fun other inside => each other (List.mem_cons_of_mem _ inside)) seen
        (fun target reached => by
      obtain ⟨middle, before, spans⟩ := ends target (by rwa [reaches_trim])
      obtain ⟨within, halts⟩ := starts middle before
      exact ⟨le_limit_of_spans (halts_head halts) within spans, halts_tail halts spans⟩)
    refine follows_mono (fun more last agrees => agrees_mono agrees fun stop leads => ?_) later
    obtain ⟨target, reached, second⟩ := leads
    obtain ⟨middle, before, first⟩ := ends target (by rwa [reaches_trim])
    exact ⟨middle, before, .sequence first second⟩

private theorem partsOfAny_follows {options : List Element} (within : position ≤ limit)
    (each : ∀ option ∈ options, ElementFollows grammar kinds limit descend descendShort option)
    (halts : ∀ option ∈ options, Halts grammar kinds.toList limit option position)
    (ends : Nat → Prop)
    (chosen : ∀ option ∈ options, ∀ stop, Spans grammar kinds.toList option position stop →
      ends stop)
    {found seen : Parts} (agrees : Agrees ends found seen) :
    Follows grammar kinds.toList (Agrees ends)
      (Element.partsOfAny kinds descend options position found)
      (Element.partsOfAny (kinds.take limit) descendShort options position seen) := by
  induction options generalizing found seen with
  | nil => exact follows_pure agrees
  | cons option rest ih =>
    refine follows_bind (each option (by simp) position within (halts option (by simp)))
      fun more later added => ?_
    exact ih (fun other inside => each other (List.mem_cons_of_mem _ inside))
      (fun other inside => halts other (List.mem_cons_of_mem _ inside))
      (fun other inside => chosen other (List.mem_cons_of_mem _ inside))
      (agrees_merge agrees (agrees_mono added (chosen option (by simp))))

private theorem token_follows (long : limit < kinds.size) (kind : Kind) :
    ElementFollows grammar kinds limit descend descendShort (.token kind) := by
  intro position within halts
  have short : (kinds.take limit)[position]? =
      if position < limit then kinds[position]? else none := by
    simp only [Array.take_eq_extract, Array.getElem?_extract, Nat.sub_zero, Nat.zero_add,
      Nat.min_eq_left (Nat.le_of_lt long)]
  have missed : Agrees (Spans grammar kinds.toList (.token kind) position) ([] : Parts) [] :=
    ⟨rfl, fun stop reached => by simp at reached⟩
  simp only [Element.parts, short]
  cases present : kinds[position]? with
  | none =>
    have beyond := Array.getElem?_eq_none_iff.mp present
    omega
  | some found =>
    by_cases before : position < limit
    · simp only [before, ↓reduceIte]
      split
      · rename_i same
        refine follows_pure ⟨rfl, fun stop reached => ?_⟩
        cases reaches_upTo_singleton reached
        exact .token (by simp [present, same])
      · exact follows_expect position kind missed
    · -- At the limit the whole text goes on with another token, and the shorter one breaks off.
      obtain rfl : position = limit := Nat.le_antisymm within (Nat.le_of_not_lt before)
      have different : found ≠ kind := fun same => halts kind .token (by simp [present, same])
      simp only [before, different, ↓reduceIte]
      exact follows_expect position kind ⟨rfl, missed.2⟩

private theorem repeated_follows (long : limit < kinds.size)
    (each : ElementFollows grammar kinds limit descend descendShort item) :
    ElementFollows grammar kinds limit descend descendShort (.repeated item) := by
  intro position within halts
  have inRange (middle) (spans : Spans grammar kinds.toList (.repeated item) position middle) :
      position ≤ middle ∧ middle ≤ limit := by
    refine ⟨?_, le_limit_of_spans halts within spans⟩
    rcases spans_le spans with same | moved <;> omega
  have few : (missing position limit [(.upTo position, [])]).card < limit + 2 :=
    Nat.lt_of_le_of_lt (unseen_card_le position limit _) (by omega)
  have size : (kinds.take limit).size = limit := by simp [Nat.le_of_lt long]
  refine iterate_follows inRange (fun middle target before spans => spans_snoc before spans)
    (fun middle spans => each middle (inRange middle spans).2 (halts_repeated halts spans)) _ _
    [(.upTo position, [])] _ (fun _ => by omega) ?_ ?_
  · intro middle inside
    simp only [List.map_cons, List.map_nil, List.mem_singleton] at inside
    exact inside ▸ .done
  · intro stop reached
    cases reaches_upTo_singleton reached
    exact .done

/-- Up to the limit an element is parsed as in the whole text. -/
theorem parts_follows (long : limit < kinds.size)
    (rules : RuleFollows grammar kinds limit descend descendShort) (element : Element) :
    ElementFollows grammar kinds limit descend descendShort element := by
  induction element using Element.induction with
  | token kind => exact token_follows long kind
  | reference target =>
    intro position within halts
    refine follows_bind (rules target position within halts) fun found seen agrees =>
      follows_pure ?_
    refine ⟨by rw [trim_map, ← agrees.1], fun stop reached => agrees.2 stop ?_⟩
    rwa [reaches_map] at reached
  | sequence items ih =>
    intro position within halts
    have inOrder := partsInOrder_follows ih [(.upTo position, [])] fun middle reached => by
      cases reaches_upTo_singleton reached
      exact ⟨within, halts⟩
    refine follows_mono (fun found seen agrees => agrees_mono agrees fun stop leads => ?_) inOrder
    obtain ⟨middle, reached, spans⟩ := leads
    cases reaches_upTo_singleton reached
    exact spans
  | choice options ih =>
    intro position within halts
    exact partsOfAny_follows within ih (fun option member => halts_choice halts member) _
      (fun option member stop spans => .choice member spans)
      ⟨rfl, fun stop reached => by simp at reached⟩
  | optional item ih =>
    intro position within halts
    refine follows_bind (ih position within (halts_optional halts)) fun found seen agrees =>
      follows_pure ?_
    refine agrees_merge (agrees_mono agrees fun stop => .taken) ⟨rfl, fun stop reached => ?_⟩
    cases reaches_upTo_singleton reached
    exact .skipped
  | repeated item ih => exact repeated_follows long ih

/-! ## Rules -/

/-- Up to a limit that no path gets beyond, a rule is parsed as in the whole text. -/
theorem parseRule_follows (long : limit < kinds.size) (depth : Nat) :
    RuleFollows grammar kinds limit (parseRule grammar kinds depth)
        (parseRule grammar (kinds.take limit) depth) := by
  induction depth with
  | zero =>
    intro rule position within halts state other mirrors found after ran
    cases ran
  | succ depth ih =>
    intro rule position within halts state other mirrors found after ran
    rw [parseRule_apply] at ran ⊢
    have records := mirrors.same rule position
    cases known : other.recorded[(rule, position)]? with
    | some seen =>
      rw [known, Option.map_some] at records
      rw [records] at ran
      cases ran
      exact ⟨seen, other, rfl, ⟨rfl, mirrors.sound rule position _ records⟩, mirrors⟩
    | none =>
      rw [known, Option.map_none] at records
      rw [records] at ran
      cases defined : grammar rule with
      | none => rw [defined] at ran; cases ran
      | some element =>
        simp only [defined] at ran ⊢
        have begun : Mirrors grammar kinds.toList (state.record rule position [])
            (other.record rule position []) :=
          mirrors_record mirrors ⟨rfl, fun stop reached => by simp at reached⟩
        cases inside : element.parts kinds (parseRule grammar kinds depth) position
            (state.record rule position []) with
        | error obstacle => rw [inside] at ran; cases ran
        | ok outcome =>
          rw [inside] at ran
          cases ran
          obtain ⟨seen, later, also, agrees, kept⟩ :=
            parts_follows long ih element position within
              (halts_reference defined halts) _ _ begun _ _ inside
          have closed : Agrees (Spans grammar kinds.toList (.reference rule) position)
              (Outcomes.close rule outcome.1) (Outcomes.close rule seen) :=
            ⟨by rw [trim_close, ← agrees.1], fun stop reached =>
              .reference defined (agrees.2 stop (by rwa [reaches_close] at reached))⟩
          rw [also]
          exact ⟨_, _, rfl, closed, mirrors_record kept closed⟩

/-- Where no path from a position gets beyond a limit, the text up to the limit needs no more depth
than the whole text. -/
theorem parseFrom_take (long : limit < kinds.size) (within : position ≤ limit)
    (halts : Halts grammar kinds.toList limit (.reference rule) position)
    (ran : parseFrom grammar kinds depth rule position = .ok (found, state)) :
    ∃ seen later, parseFrom grammar (kinds.take limit) depth rule position = .ok (seen, later) := by
  have begun : Mirrors grammar kinds.toList {} {} :=
    ⟨fun _ _ => by simp, fun _ _ _ present => by simp at present⟩
  obtain ⟨seen, later, also, -⟩ :=
    parseRule_follows long depth rule position within halts {} {} begun found state ran
  exact ⟨seen, later, also⟩

end CypherAssist.Grammar
