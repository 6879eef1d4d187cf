import CypherAssist.Proofs.Grammar.Lifting
import CypherAssist.Proofs.Grammar.Memory

/-! What a parser keeps is genuine, for any grammar. A rule that is still open has a record without
outcomes, which others may read and build on; but that only loses derivations, and never adds a
false one. So genuine records are an invariant of every action of the parser, and a node may be
judged by itself: by its children and the right-hand side of its rule. And since a rule is entered
only at a position where it has no record, parsing ends whatever the grammar is. -/
namespace CypherAssist.Grammar
open Token Outcomes Parts

/-- What a node has for a child: a token of some kind, or a rule with its own node. -/
inductive Letter where
  | token (kind : Kind)
  | rule (rule : Rule)

/-- The letters of the children that an element asks for. Rules are not looked into. -/
inductive Outline : Element → List Letter → Prop where
  | token : Outline (.token kind) [.token kind]
  | reference : Outline (.reference rule) [.rule rule]
  | empty : Outline (.sequence []) []
  | sequence (first : Outline item letters) (second : Outline (.sequence rest) more) :
    Outline (.sequence (item :: rest)) (letters ++ more)
  | choice (member : option ∈ options) (chosen : Outline option letters) :
    Outline (.choice options) letters
  | skipped : Outline (.optional item) []
  | taken (inside : Outline item letters) : Outline (.optional item) letters
  | done : Outline (.repeated item) []
  | again (first : Outline item letters) (second : Outline (.repeated item) more) :
    Outline (.repeated item) (letters ++ more)

/-- The letter of a derivation, unless it names a token that is not there. -/
def Derivation.letter? (input : List Kind) : Derivation → Option Letter
  | .token position => input[position]?.map .token
  | .node rule _ _ => some (.rule rule)

/-- The letters of the derivations, one by one. -/
def Shows (input : List Kind) (children : List Derivation) (letters : List Letter) : Prop :=
  children.map (Derivation.letter? input) = letters.map some

/-- A derivation without partial nodes, each node with a word of its rule for its children. -/
inductive Complete (grammar : Grammar) (input : List Kind) : Derivation → Prop where
  | token (found : input[position]? = some kind) : Complete grammar input (.token position)
  | node (defined : grammar rule = some element) (word : Outline element letters)
    (shown : Shows input children letters)
    (inside : ∀ child ∈ children, Complete grammar input child) :
    Complete grammar input (.node rule false children)

/-- The children are complete and begin a word of the element, and this letter fits next. -/
structure Begun (grammar : Grammar) (input : List Kind) (element : Element)
    (children : List Derivation) (next : Letter) : Prop where
  word : ∃ seen more, Shows input children seen ∧ Outline element (seen ++ next :: more)
  inside : ∀ child ∈ children, Complete grammar input child

/-- A partial node. Its children begin a word of its rule, and a token could follow where the text
ends; or the last one is itself a partial node, and all others are complete. -/
inductive Unfinished (grammar : Grammar) (input : List Kind) : Derivation → Prop where
  | asking (defined : grammar rule = some element)
    (begun : Begun grammar input element children (.token kind)) :
    Unfinished grammar input (.node rule true children)
  | within (defined : grammar rule = some element)
    (begun : Begun grammar input element children (.rule target))
    (last : Unfinished grammar input (.node target true more)) :
    Unfinished grammar input (.node rule true (children ++ [.node target true more]))

/-- No choice inside the element is without options. -/
def Element.NoEmptyChoice (element : Element) : Prop :=
  .choice [] ∉ element.subelements

/-- A derivation for a rule at a position, judged by its nodes and by the tokens that it covers. -/
inductive Justified (grammar : Grammar) (input : List Kind) (rule : Rule) (position : Nat) :
    Reach → Derivation → Prop where
  | whole (complete : Complete grammar input (.node rule false children))
    (ordered : position ≤ stop) (within : stop ≤ input.length)
    (covers : (Derivation.node rule false children).leaves =
      List.range' position (stop - position)) :
    Justified grammar input rule position (.upTo stop) (.node rule false children)
  | cut (unfinished : Unfinished grammar input (.node rule true children))
    (covers : (Derivation.node rule true children).leaves =
      List.range' position (input.length - position)) :
    Justified grammar input rule position .cut (.node rule true children)

variable {grammar : Grammar} {input : List Kind} {kinds : Array Kind} {start stop : Nat}

/-! ## Outlines -/

theorem noEmptyChoice_head (optioned : Element.NoEmptyChoice (.sequence (item :: rest))) :
    item.NoEmptyChoice := fun member =>
  optioned (by simp [Element.subelements, Element.subelementsOfAll, member])

theorem noEmptyChoice_tail (optioned : Element.NoEmptyChoice (.sequence (item :: rest))) :
    Element.NoEmptyChoice (.sequence rest) := by
  intro member
  rcases List.mem_cons.mp member with impossible | member
  · cases impossible
  · exact optioned (by simp [Element.subelements, Element.subelementsOfAll, member])

theorem noEmptyChoice_option (member : option ∈ options)
    (optioned : Element.NoEmptyChoice (.choice options)) : option.NoEmptyChoice := fun inside =>
  optioned (List.mem_cons_of_mem _ (Element.mem_subelementsOfAll.mpr ⟨option, member, inside⟩))

/-- Every element asks for something that it could be content with. -/
theorem exists_outline (optioned : element.NoEmptyChoice) : ∃ letters, Outline element letters := by
  induction element using Element.induction with
  | token => exact ⟨_, .token⟩
  | reference => exact ⟨_, .reference⟩
  | sequence items ih =>
    induction items with
    | nil => exact ⟨_, .empty⟩
    | cons item rest ihRest =>
      obtain ⟨letters, first⟩ := ih item (by simp) (noEmptyChoice_head optioned)
      obtain ⟨more, second⟩ := ihRest (fun later inside => ih later (List.mem_cons_of_mem _ inside))
        (noEmptyChoice_tail optioned)
      exact ⟨_, .sequence first second⟩
  | choice options ih =>
    cases options with
    | nil => exact absurd (Element.mem_subelements_self _) optioned
    | cons option rest =>
      obtain ⟨letters, chosen⟩ := ih option (by simp) (noEmptyChoice_option (by simp) optioned)
      exact ⟨_, .choice (by simp) chosen⟩
  | optional => exact ⟨_, .skipped⟩
  | repeated => exact ⟨_, .done⟩

theorem shows_nil : Shows input [] [] := rfl

theorem shows_append (first : Shows input children letters) (second : Shows input added more) :
    Shows input (children ++ added) (letters ++ more) := by
  simp only [Shows, List.map_append] at *
  rw [first, second]

/-! ## Nodes -/

/-- The derivations are complete, and the letters that they show are a word of the element. -/
theorem outline_of_derives
    (derives : Derives grammar input element start (.upTo stop) children) :
    (∃ letters, Outline element letters ∧ Shows input children letters) ∧
      ∀ child ∈ children, Complete grammar input child := by
  generalize place : Reach.upTo stop = reach at derives
  induction derives generalizing stop with
  | token found =>
    exact ⟨⟨_, .token, by simp [Shows, Derivation.letter?, found]⟩, by simpa using .token found⟩
  | reference defined _ ih =>
    obtain ⟨⟨letters, word, shown⟩, inside⟩ := ih place
    subst place
    exact ⟨⟨_, .reference, by simp [Shows, Derivation.letter?]⟩,
      by simpa using .node defined word shown inside⟩
  | empty => exact ⟨⟨_, .empty, rfl⟩, by simp⟩
  | skipped => exact ⟨⟨_, .skipped, rfl⟩, by simp⟩
  | done => exact ⟨⟨_, .done, rfl⟩, by simp⟩
  | choice member _ ih =>
    obtain ⟨⟨letters, word, shown⟩, inside⟩ := ih place
    exact ⟨⟨_, .choice member word, shown⟩, inside⟩
  | taken _ ih =>
    obtain ⟨⟨letters, word, shown⟩, inside⟩ := ih place
    exact ⟨⟨_, .taken word, shown⟩, inside⟩
  | sequence _ _ ihFirst ihSecond =>
    obtain ⟨⟨letters, word, shown⟩, inside⟩ := ihFirst rfl
    obtain ⟨⟨more, words, also⟩, others⟩ := ihSecond place
    exact ⟨⟨_, .sequence word words, shows_append shown also⟩,
      List.forall_mem_append.mpr ⟨inside, others⟩⟩
  | again _ _ ihFirst ihSecond =>
    obtain ⟨⟨letters, word, shown⟩, inside⟩ := ihFirst rfl
    obtain ⟨⟨more, words, also⟩, others⟩ := ihSecond place
    exact ⟨⟨_, .again word words, shows_append shown also⟩,
      List.forall_mem_append.mpr ⟨inside, others⟩⟩
  | brokenOff | sequenceCut | againCut => cases place

/-- The text breaks off behind the children: where a token is asked for, or inside the last. -/
inductive Breaks (grammar : Grammar) (input : List Kind) (element : Element) :
    List Derivation → Prop where
  | asking (begun : Begun grammar input element children (.token kind)) :
    Breaks grammar input element children
  | within (begun : Begun grammar input element children (.rule target))
    (last : Unfinished grammar input (.node target true more)) :
    Breaks grammar input element (children ++ [.node target true more])

theorem unfinished_of_breaks (defined : grammar rule = some element)
    (breaks : Breaks grammar input element children) :
    Unfinished grammar input (.node rule true children) := by
  cases breaks with
  | asking begun => exact .asking defined begun
  | within begun last => exact .within defined begun last

theorem begun_reference : Begun grammar input (.reference rule) [] (.rule rule) :=
  ⟨⟨[], [], shows_nil, .reference⟩, List.forall_mem_nil _⟩

/-- What begins a part begins the whole, behind complete children for what comes before. -/
theorem begun_inside (after : List Letter) (shown : Shows input front before)
    (complete : ∀ child ∈ front, Complete grammar input child)
    (around : ∀ letters, Outline item letters → Outline element (before ++ letters ++ after))
    (begun : Begun grammar input item children next) :
    Begun grammar input element (front ++ children) next := by
  obtain ⟨⟨seen, more, here, word⟩, inside⟩ := begun
  refine ⟨⟨before ++ seen, more ++ after, shows_append shown here, ?_⟩,
    List.forall_mem_append.mpr ⟨complete, inside⟩⟩
  simpa only [List.append_assoc, List.cons_append] using around _ word

theorem breaks_inside (after : List Letter) (shown : Shows input front before)
    (complete : ∀ child ∈ front, Complete grammar input child)
    (around : ∀ letters, Outline item letters → Outline element (before ++ letters ++ after))
    (breaks : Breaks grammar input item children) :
    Breaks grammar input element (front ++ children) := by
  cases breaks with
  | asking begun => exact .asking (begun_inside after shown complete around begun)
  | within begun last =>
    rw [← List.append_assoc]
    exact .within (begun_inside after shown complete around begun) last

/-- A part at the very beginning that breaks off. -/
theorem breaks_first (after : List Letter)
    (around : ∀ letters, Outline item letters → Outline element (letters ++ after))
    (breaks : Breaks grammar input item children) : Breaks grammar input element children :=
  breaks_inside after shows_nil (List.forall_mem_nil _) around breaks

/-- No grammar rule has a choice without options. -/
def NoEmptyChoice (grammar : Grammar) : Prop :=
  ∀ rule element, grammar rule = some element → element.NoEmptyChoice

/-- Derivations that are cut short begin a word, as long as every part has some word. -/
theorem breaks_of_derives (rules : NoEmptyChoice grammar) (optioned : element.NoEmptyChoice)
    (derives : Derives grammar input element start .cut children) :
    Breaks grammar input element children := by
  generalize cut : Reach.cut = reach at derives
  induction derives with
  | brokenOff => exact .asking ⟨⟨[], [], rfl, .token⟩, by simp⟩
  | reference defined _ ih =>
    subst cut
    have node := unfinished_of_breaks defined (ih (rules _ _ defined) rfl)
    exact .within begun_reference node
  | sequence first _ _ ih =>
    obtain ⟨⟨letters, word, shown⟩, inside⟩ := outline_of_derives first
    refine breaks_inside [] shown inside (fun more words => ?_)
      (ih (noEmptyChoice_tail optioned) cut)
    simpa using .sequence word words
  | sequenceCut _ ih =>
    obtain ⟨rest, words⟩ := exists_outline (noEmptyChoice_tail optioned)
    exact breaks_first rest (fun letters word => .sequence word words)
      (ih (noEmptyChoice_head optioned) cut)
  | choice member _ ih =>
    refine breaks_first [] (fun letters word => ?_)
      (ih (noEmptyChoice_option member optioned) cut)
    simpa using .choice member word
  | taken _ ih =>
    refine breaks_first [] (fun letters word => ?_)
      (ih (fun member => optioned (List.mem_cons_of_mem _ member)) cut)
    simpa using .taken word
  | again first _ _ ih =>
    obtain ⟨⟨letters, word, shown⟩, inside⟩ := outline_of_derives first
    refine breaks_inside [] shown inside (fun more words => ?_) (ih optioned cut)
    simpa using .again word words
  | againCut _ ih =>
    exact breaks_first [] (fun letters word => .again word .done)
      (ih (fun member => optioned (List.mem_cons_of_mem _ member)) cut)
  | token | empty | skipped | done => cases cut

/-! ## Records -/

/-- Every record holds genuine derivations only. -/
def Records (grammar : Grammar) (input : List Kind) (state : ParserState) : Prop :=
  ∀ rule position found, state.recorded[(rule, position)]? = some found →
    Genuine grammar input rule position found

/-- The rules and positions that have a record, which is all that have ever been entered. -/
def ParserState.entries (state : ParserState) : Set (Rule × Nat) :=
  {key | key ∈ state.recorded}

/-- How many rules and positions, up to a limit, are left to be entered. -/
noncomputable def unentered (limit : Nat) (entered : Set (Rule × Nat)) : Nat :=
  {key : Rule × Nat | key.2 ≤ limit ∧ key ∉ entered}.ncard

/-- Why a rule may fail: a rule is undefined, or the depth is no more than what is left to enter. -/
inductive Hindrance (grammar : Grammar) (depth left : Nat) : Obstacle → Prop where
  | undefined (absent : grammar rule = none) : Hindrance grammar depth left (.undefined rule)
  | deep (short : depth ≤ left) : Hindrance grammar depth left .tooDeep

/-- Run with genuine records, and with these entries among them, the action fails only for a reason
given. Otherwise it gives what it should, leaves the records genuine and keeps the entries. -/
def Retains (grammar : Grammar) (input : List Kind) (entered : Set (Rule × Nat))
    (fails : Obstacle → Prop) : Relating := fun _ action _ holds =>
  ∀ state, Records grammar input state → entered ⊆ state.entries →
    (∀ obstacle, action state = .error obstacle → fails obstacle) ∧
      ∀ value after, action state = .ok (value, after) →
        holds value ∧ Records grammar input after ∧ entered ⊆ after.entries

variable {entered : Set (Rule × Nat)} {fails : Obstacle → Prop} {limit : Nat}

theorem finite_unentered (limit : Nat) (entered : Set (Rule × Nat)) :
    {key : Rule × Nat | key.2 ≤ limit ∧ key ∉ entered}.Finite :=
  (Set.finite_univ.prod (Set.finite_Iic limit)).subset fun _ left => ⟨trivial, left.1⟩

theorem unentered_insert_lt (inside : position ≤ limit) (new : (rule, position) ∉ entered) :
    unentered limit (insert (rule, position) entered) < unentered limit entered := by
  refine Set.ncard_lt_ncard ⟨fun key left => ⟨left.1, fun known => left.2 (.inr known)⟩,
    fun all => ?_⟩ (finite_unentered ..)
  exact (all ⟨inside, new⟩).2 (Set.mem_insert ..)

theorem unentered_lt_fullDepth (size : Nat) (entered : Set (Rule × Nat)) :
    unentered size entered < fullDepth size := by
  have covered : {key : Rule × Nat | key.2 ≤ size ∧ key ∉ entered} ⊆
      (Set.univ : Set Rule) ×ˢ Set.Iic size := fun _ left => ⟨trivial, left.1⟩
  calc unentered size entered ≤ ((Set.univ : Set Rule) ×ˢ Set.Iic size).ncard :=
        Set.ncard_le_ncard covered (Set.finite_univ.prod (Set.finite_Iic size))
    _ = Nat.card Rule * (size + 1) := by simp [Set.ncard_prod, Set.ncard_eq_toFinset_card']
    _ ≤ Rule.all.length * (size + 1) := Nat.mul_le_mul_right _ card_rule_le
    _ ≤ Rule.all.length * (size + 2) := Nat.mul_le_mul_left _ (Nat.le_succ _)
    _ < fullDepth size := Nat.lt_succ_self _

theorem keys_insert {α : Type} (recorded : RuleTable α) (key : Rule × Nat) (value : α) :
    {other | other ∈ recorded.insert key value} = insert key {other | other ∈ recorded} := by
  ext other
  simp only [Set.mem_ofPred_eq, Std.TreeMap.mem_insert, Std.LawfulEqCmp.compare_eq_iff_eq,
    Set.mem_insert_iff]
  exact or_congr_left eq_comm

theorem not_mem_keys {α : Type} {recorded : RuleTable α} {key : Rule × Nat}
    (new : recorded[key]? = none) : key ∉ {other | other ∈ recorded} :=
  (getElem?_eq_none_iff recorded key).mp new

theorem entries_record (state : ParserState) (rule : Rule) (position : Nat)
    (found : Outcomes Derivation) :
    (state.record rule position found).entries = insert (rule, position) state.entries :=
  keys_insert ..

theorem records_record {state : ParserState} (records : Records grammar input state)
    (genuine : Genuine grammar input rule position found) :
    Records grammar input (state.record rule position found) := by
  intro other place present recordedAs
  rw [getElem?_recorded_record] at recordedAs
  split at recordedAs
  · rename_i same
    cases same
    cases recordedAs
    exact genuine
  · exact records other place present recordedAs

theorem sequencing_retains : Sequencing (Retains grammar input entered fails) where
  pure here := by
    refine fun state records known => ⟨fun _ failed => (nomatch failed), ?_⟩
    intro value after ran
    cases ran
    exact ⟨here, records, known⟩
  bind {_ _ one _ _ _ _ _} first second := by
    intro state records known
    obtain ⟨excuse, gives⟩ := first state records known
    refine ⟨fun obstacle failed => ?_, fun result final ran => ?_⟩
    · cases ran : one state with
      | error found =>
        rw [bind_of_error ran] at failed
        cases failed
        exact excuse _ ran
      | ok outcome =>
        obtain ⟨here, kept, still⟩ := gives outcome.1 outcome.2 ran
        rw [bind_of_ok ran] at failed
        exact (second _ here _ kept still).1 obstacle failed
    · obtain ⟨value, middle, passed, ran⟩ := exists_of_bind_eq_ok ran
      obtain ⟨here, kept, still⟩ := gives value middle passed
      exact (second _ here _ kept still).2 result final ran
  expect position kind := by
    refine fun state records known => ⟨fun _ failed => (nomatch failed), ?_⟩
    intro value after ran
    cases ran
    refine ⟨trivial, fun rule place found present => ?_, ?_⟩
    · rw [recorded_expect] at present
      exact records rule place found present
    · rwa [ParserState.entries, recorded_expect]

/-- Parsing a rule keeps the records genuine, and gives what it records. It enters a rule only at a
position where that has no record, so that whatever the grammar is some depth suffices. -/
theorem parseRule_retains (depth : Nat) (rule : Rule) (position : Nat)
    (entered : Set (Rule × Nat)) (inside : position ≤ limit) (whole : kinds.size ≤ limit) :
    RelatesRule (Retains grammar kinds.toList entered
        (Hindrance grammar depth (unentered limit entered))) grammar kinds
      (parseRule grammar kinds depth) (parseRule grammar kinds depth) rule position := by
  induction depth generalizing rule position entered with
  | zero =>
    refine fun state _ _ => ⟨fun obstacle failed => ?_, fun _ _ ran => nomatch ran⟩
    cases failed
    exact .deep (Nat.zero_le _)
  | succ depth ih =>
    intro state records known
    rw [parseRule_apply]
    cases present : state.recorded[(rule, position)]? with
    | some found =>
      refine ⟨fun _ failed => (nomatch failed), fun value after ran => ?_⟩
      cases ran
      exact ⟨records rule position _ present, records, known⟩
    | none =>
      cases defined : grammar rule with
      | none =>
        refine ⟨fun obstacle failed => ?_, fun _ _ ran => nomatch ran⟩
        cases failed
        exact .undefined defined
      | some element =>
        have new : (rule, position) ∉ entered := fun member => not_mem_keys present (known member)
        have fewer := unentered_insert_lt inside new
        have opened : Records grammar kinds.toList (state.record rule position []) :=
          records_record records all_nil
        have begun : insert (rule, position) entered ⊆ (state.record rule position []).entries := by
          rw [entries_record]
          exact Set.insert_subset_insert known
        obtain ⟨fails, gives⟩ := parts_relates sequencing_retains element position
          (fun target place called => ih target place (insert (rule, position) entered) (by
            rcases called.2 with ⟨-, within⟩ | ⟨same, -⟩ <;> omega)) _ opened begun
        refine ⟨fun obstacle failed => ?_, fun value after ran => ?_⟩
        · cases fails obstacle (eq_error_of_map_eq_error failed) with
          | undefined absent => exact .undefined absent
          | deep short => exact .deep (Nat.succ_le_of_lt (Nat.lt_of_le_of_lt short fewer))
        · obtain ⟨⟨parts, middle⟩, passed, same⟩ := exists_of_map_eq_ok ran
          cases same
          obtain ⟨derived, kept, still⟩ := gives parts middle passed
          have genuine := genuine_close defined derived
          refine ⟨genuine, records_record kept genuine, ?_⟩
          rw [entries_record]
          exact ((Set.subset_insert ..).trans still).trans (Set.subset_insert ..)

theorem records_of_used (used : Used grammar kinds depth state) :
    Records grammar kinds.toList state := by
  induction used with
  | fresh => exact fun rule position found present => by simp at present
  | @again state _ position _ _ _ ran ih =>
    obtain ⟨-, gives⟩ := parseRule_retains depth _ position ∅ (Nat.le_max_left position kinds.size)
      (Nat.le_max_right ..) state ih (Set.empty_subset _)
    exact (gives _ _ ran).2.1

theorem justified_of_derives (rules : NoEmptyChoice grammar) (inside : position ≤ input.length)
    (derives : Derives grammar input (.reference rule) position reach [derivation]) :
    Justified grammar input rule position reach derivation := by
  obtain ⟨ordered, within, covers⟩ := leaves_of_derives derives inside
  simp only [Derivation.leavesOfAll, List.append_nil] at covers
  cases derives with
  | reference defined body =>
    cases reach with
    | upTo stop =>
      obtain ⟨⟨letters, word, shown⟩, children⟩ := outline_of_derives body
      exact .whole (.node defined word shown children) ordered within covers
    | cut =>
      exact .cut (unfinished_of_breaks defined (breaks_of_derives rules (rules _ _ defined) body))
        covers

/-- Whatever a parser has been used for, the derivations that it gives for a rule are genuine, and
so are all those that it has recorded: each stands for its rule from the position to its end, or to
the end of a text that breaks off. Only a rule that is undefined can keep the parser from an answer.
-/
theorem derivations_genuine (rules : NoEmptyChoice grammar) (used : Used grammar kinds depth state)
    (inside : position ≤ kinds.size) :
    (∀ found after, parseRule grammar kinds depth rule position state = .ok (found, after) →
      (∀ reach derivation, (reach, derivation) ∈ found →
        Justified grammar kinds.toList rule position reach derivation) ∧
      ∀ other place kept, after.recorded[(other, place)]? = some kept → place ≤ kinds.size →
        ∀ reach derivation, (reach, derivation) ∈ kept →
          Justified grammar kinds.toList other place reach derivation) ∧
    (fullDepth kinds.size ≤ depth → ∀ obstacle,
      parseRule grammar kinds depth rule position state = .error obstacle →
        ∃ target, grammar target = none ∧ obstacle = .undefined target) := by
  obtain ⟨fails, gives⟩ := parseRule_retains depth rule position ∅ inside (Nat.le_refl _) state
    (records_of_used used) (Set.empty_subset _)
  refine ⟨fun found after ran => ?_, fun deep obstacle failed => ?_⟩
  · obtain ⟨genuine, records, -⟩ := gives found after ran
    refine ⟨fun reach derivation member => ?_, fun other place kept present within reach derivation
      member => ?_⟩
    · exact justified_of_derives rules (by simpa using inside) (genuine reach derivation member)
    · exact justified_of_derives rules (by simpa using within)
        (records other place kept present reach derivation member)
  · cases fails obstacle failed with
    | undefined absent => exact ⟨_, absent, rfl⟩
    | deep short =>
      exact absurd (short.trans_lt (unentered_lt_fullDepth ..)) (Nat.not_lt_of_le deep)

/-- Statements that may go on behind a semicolon, with the recursion on the left. -/
def leftRecursive : Grammar
  | .statements => some (.choice [.sequence [Rule.statements, Symbol.semicolon],
      .sequence [Keyword.RETURN, .optional Symbol.semicolon]])
  | _ => none

/-- A rule that asks for itself first is still parsed, and what is found of it is genuine; and no
rule of its grammar is too deep for the parser. -/
theorem left_recursive_genuine :
    (∃ whole begun after,
      parseRule leftRecursive #[.keyword .RETURN] (fullDepth 1) .statements 0 {} =
        .ok ([(.cut, begun), (.upTo 1, whole)], after) ∧
      Justified leftRecursive [.keyword .RETURN] .statements 0 (.upTo 1) whole ∧
      Justified leftRecursive [.keyword .RETURN] .statements 0 .cut begun) ∧
    ∀ rule obstacle,
      parseRule leftRecursive #[.keyword .RETURN] (fullDepth 1) rule 0 {} = .error obstacle →
        ∃ target, leftRecursive target = none ∧ obstacle = .undefined target := by
  have rules : NoEmptyChoice leftRecursive := by
    intro rule element defined
    cases rule <;> cases defined
    simp [Element.NoEmptyChoice, Element.subelements, Element.subelementsOfAll]
  refine ⟨?_, fun rule => (derivations_genuine rules .fresh (Nat.zero_le 1)).2 (Nat.le_refl _)⟩
  have ran : ∃ after,
      (parseRule leftRecursive #[.keyword .RETURN] (fullDepth 1) .statements 0).run {} =
        .ok ([(.cut, .node .statements true [.token 0]),
          (.upTo 1, .node .statements false [.token 0])], after) := by
    -- Two rules are open at once, however much deeper the parser may go.
    have deep : fullDepth 1 = fullDepth 1 - 2 + 1 + 1 := by decide
    rw [deep]
    generalize fullDepth 1 - 2 = depth
    simp [parseRule, leftRecursive, Element.parts, Element.partsOfAny, Element.partsInOrder, extend,
      behind, merge, reaches, close, ParserState.record, ParserState.expect]
    exact ⟨_, rfl⟩
  obtain ⟨after, ran⟩ := ran
  have genuine := ((derivations_genuine rules .fresh (Nat.zero_le 1)).1 _ _ ran).1
  exact ⟨_, _, after, ran, genuine _ _ (by simp), genuine _ _ (by simp)⟩

end CypherAssist.Grammar
