import CypherAssist.Completion.Classify
import CypherAssist.Proofs.Completion.Names
import CypherAssist.Proofs.Grammar.Acceptance
import CypherAssist.Proofs.Grammar.Enclosing

/-! What the place of a label or relationship type offers. Patterns nest without bound, and the
relationship pattern decides wherever it is open, whether or not a node pattern is open inside it.
Where no pattern is open the place is part of a label expression, or of the labels that a node is
given or loses. -/
namespace CypherAssist.Completion
open Token Grammar Element Schema

variable {limits : Limits}

variable {input : List Kind} {stack : List Frame} {rule target : Rule}

/-! ## Rules around a label -/

/-- What may be open inside the name of something that can be called. -/
def callableRange : List Rule :=
  [.procedureName, .functionName, .namespacePath, .symbolicNameString, .escapedSymbolicNameString,
    .unescapedSymbolicNameString]

/-- The levels of a label expression. -/
def labelLevels : List Rule :=
  [.labelExpression4, .labelExpression3, .labelExpression2, .labelExpression1]

/-- What may be open inside a label expression. -/
def labelRange : List Rule := .labelExpression :: .symbolicLabelNameString :: labelLevels

theorem mentions_cypher_iff :
    Mentions cypher rule target ↔ target ∈ (definition rule).references := by
  constructor
  · rintro ⟨element, ⟨⟩, mentions⟩
    exact mentions
  · exact fun mentions => ⟨_, rfl, mentions⟩

/-- What a rule refers to, as far as labels and the names of what can be called go. -/
structure Confined (rule target : Rule) : Prop where
  callable : rule ∈ callableRange → target ∈ callableRange
  expression : rule ∈ labelRange → target ∈ labelRange
  level : target ∈ labelLevels → rule ∈ labelLevels ∨ rule = .labelExpression
  label : target = .symbolicLabelNameString → rule = .nodeLabels ∨ rule = .labelExpression1
  labels : target = .nodeLabels → rule = .setItem ∨ rule = .removeItem

theorem confined_of_mentions (mentions : Mentions cypher rule target) : Confined rule target := by
  have checked : ∀ rule ∈ Rule.all, ∀ target ∈ (definition rule).references,
      (rule ∈ callableRange → target ∈ callableRange) ∧
        (rule ∈ labelRange → target ∈ labelRange) ∧
        (target ∈ labelLevels → rule ∈ labelLevels ∨ rule = .labelExpression) ∧
        (target = .symbolicLabelNameString → rule = .nodeLabels ∨ rule = .labelExpression1) ∧
        (target = .nodeLabels → rule = .setItem ∨ rule = .removeItem) := by decide +kernel
  obtain ⟨callable, expression, level, label, labels⟩ :=
    checked rule (Rule.mem_all rule) target (mentions_cypher_iff.mp mentions)
  exact ⟨callable, expression, level, label, labels⟩

/-- The rules around a label, outermost first: nothing that can be called is among them, and the
label stands either directly among the labels of a node that is changed, or in an expression. -/
structure AroundLabel (enclosing : List Rule) : Prop where
  uncalled : ∀ rule ∈ callableRules, rule ∉ enclosing
  among : enclosing.getLast? = some .nodeLabels ↔ .labelExpression ∉ enclosing
  changed : enclosing.getLast? = some .nodeLabels → .setItem ∈ enclosing ∨ .removeItem ∈ enclosing

theorem aroundLabel_of_around
    (around : Around cypher input Grammar.start stack (.reference .symbolicLabelNameString)) :
    AroundLabel (stack.reverse.map (·.rule)) := by
  have uncalled (rule) (callable : rule ∈ callableRules) : rule ∉ stack.reverse.map (·.rule) := by
    rw [mem_enclosing]
    rintro ⟨frame, opened, rfl⟩
    have ranges : ∀ rule ∈ callableRules, rule ∈ callableRange := by decide
    have called := holds_of_open (fun _ _ inside mentions =>
      (confined_of_mentions mentions).callable inside) around opened (ranges frame.rule callable)
    exact absurd called (by decide)
  cases stack with
  | nil => cases around
  | cons top outer =>
    obtain ⟨mentions, outside⟩ := mentions_of_around around
    have last : ((top :: outer).reverse.map (·.rule)).getLast? = some top.rule := by simp
    rcases (confined_of_mentions mentions).label rfl with changes | expression
    · rw [changes] at outside
      have apart : .labelExpression ∉ (top :: outer).reverse.map (·.rule) := by
        rw [mem_enclosing]
        rintro ⟨frame, opened, same⟩
        rcases List.mem_cons.mp opened with rfl | opened
        · cases same.symm.trans changes
        · have inside := holds_of_open (fun _ _ inside mentions =>
            (confined_of_mentions mentions).expression inside) outside opened
              (by rw [same]; decide)
          exact absurd inside (by decide)
      refine ⟨uncalled, ⟨fun _ => apart, fun _ => by rw [last, changes]⟩, fun _ => ?_⟩
      cases outer with
      | nil => cases outside
      | cons above rest =>
        have opened : above ∈ top :: above :: rest := by simp
        rcases (confined_of_mentions (mentions_of_around outside).1).labels rfl with same | same
        · exact .inl (mem_enclosing.mpr ⟨above, opened, same⟩)
        · exact .inr (mem_enclosing.mpr ⟨above, opened, same⟩)
    · rw [expression] at outside
      obtain ⟨frame, opened, same⟩ := open_of_gate (fun _ _ inside mentions =>
        (confined_of_mentions mentions).level inside) outside (by decide) (by decide)
      have among : .labelExpression ∈ (top :: outer).reverse.map (·.rule) :=
        mem_enclosing.mpr ⟨frame, List.mem_cons_of_mem _ opened, same⟩
      have apart : ((top :: outer).reverse.map (·.rule)).getLast? ≠ some .nodeLabels := by
        rw [last, expression]
        decide
      exact ⟨uncalled, ⟨fun same => absurd same apart, fun absent => absurd among absent⟩,
        fun same => absurd same apart⟩

/-- A candidate for a label is where a path arrives at the label at the caret: the label is a single
token and cannot be open there. -/
theorem stands_of_label {tokens : List Token} {candidates : Candidates} {candidate : RuleCandidate}
    (backed : Backed cypher (caretAmong tokens) Grammar.start candidates)
    (member : candidate ∈ candidates.rules) (label : candidate.rule = .symbolicLabelNameString) :
    ∃ outer behind, candidate.enclosing = outer.reverse.map (·.rule) ∧
      Stands cypher (caretAmong tokens).before Grammar.start outer
        (.reference .symbolicLabelNameString) behind (caretAmong tokens).position := by
  obtain ⟨prefers, position, outer, same, backs⟩ := backed.rules candidate member
  rw [label] at prefers backs
  refine ⟨outer, ?_⟩
  rcases backs with ⟨rfl, -, behind, stands⟩ | ⟨inner, kind, follow, clear, outside, stands⟩
  · exact ⟨behind, by rw [same]; rfl, stands⟩
  · obtain ⟨body, ⟨⟩, -, meets⟩ := exists_body_of_stands stands rfl clear .token
    have here := position_eq_of_preferred (prefers_caretAmong.mp prefers) nofun meets
    have elsewhere := outside ⟨_, position⟩ (List.mem_cons_self ..)
    simp only [prefers, Bool.and_true, decide_eq_true_eq] at elsewhere
    exact absurd here elsewhere

theorem items_of_aroundLabel {candidate : RuleCandidate}
    (label : candidate.rule = .symbolicLabelNameString) (around : AroundLabel candidate.enclosing)
    (catalog : Catalog) (tokens : List Token) :
    (classify candidate catalog tokens).items =
      if .relationshipPattern ∈ candidate.enclosing then
        items catalog.relationshipTypes .typeParameter
      else if .nodePattern ∈ candidate.enclosing then items catalog.labels .typeParameter
      else if .labelExpression ∈ candidate.enclosing then
        items (catalog.relationshipTypes ++ catalog.labels) .typeParameter
      else [] := by
  have uncalled : candidate.enclosing.any callableRules.contains = false := by
    rw [List.any_eq_false]
    intro rule opened called
    exact around.uncalled rule (by simpa using called) opened
  have naming : nameRules.contains candidate.rule = true := by rw [label]; rfl
  rw [classify, if_pos naming, classifyName, uncalled]
  simp only [Bool.false_eq_true, if_false, List.contains_iff_mem]
  split_ifs <;> rfl

/-! ## Two places for a label -/

/-- The innermost pattern of the two kinds. -/
def nearestPattern? (enclosing : List Rule) : Option Rule :=
  enclosing.reverse.find? fun rule => rule = .nodePattern ∨ rule = .relationshipPattern

/-- In a text that is short, a label that some path arrives at is reported, inside the rules of some
such path. -/
theorem exists_label_candidate (limits : Limits) {text : String} {kinds : List Kind}
    (before : kindsBefore (Stream.ofText text.toList) = kinds)
    (short : Rule.all.length * (kinds.length + 1) ≤ limits.collecting)
    (arrives : ∃ outer follow, Stands cypher kinds Grammar.start outer
      (.reference .symbolicLabelNameString) follow kinds.length ∧
        ∀ frame ∈ outer, frame.rule ∉ ({} : Config).preferred) :
    ∃ candidates candidate outer behind,
      candidatesOf limits (Stream.ofText text.toList) = .ok candidates ∧
        candidate ∈ candidates.rules ∧
        candidate.rule = .symbolicLabelNameString ∧
        candidate.enclosing = outer.reverse.map (·.rule) ∧
        Stands cypher kinds Grammar.start outer (.reference .symbolicLabelNameString) behind
          kinds.length := by
  subst before
  have same : (caretAtEnd (Stream.ofText text.toList)).before =
      kindsBefore (Stream.ofText text.toList) := before_tokensUntil ..
  obtain ⟨outer, follow, stands, plain⟩ := arrives
  have reached : Reached (Stream.ofText text.toList) .symbolicLabelNameString := by
    refine ⟨_, outer, .inl ⟨rfl, fun frame opened entered => ?_, follow, ?_⟩⟩
    · exact plain frame opened (prefers_caretAmong.mp (Bool.and_eq_true_iff.mp entered).2)
    · rw [← Caret.length_before, same]
      exact stands
  obtain ⟨candidates, candidate, ran, member, label⟩ :=
    exists_candidate_of_reached reached short (by decide) nofun
  obtain ⟨around, behind, enclosing, stands⟩ := stands_of_label (collect_backed ran) member label
  rw [← Caret.length_before] at stands
  exact ⟨candidates, candidate, around, behind, ran, member, label, enclosing, same ▸ stands⟩

/-- The levels of an expression that begins with one of the simplest, innermost first. -/
def expressionFrames (position : Nat) : List Frame :=
  [⟨.expression2, position⟩, ⟨.expression3, position⟩, ⟨.expression4, position⟩,
    ⟨.expression5, position⟩, ⟨.expression6, position⟩, ⟨.expression7, position⟩,
    ⟨.expression8, position⟩, ⟨.expression9, position⟩, ⟨.expression10, position⟩,
    ⟨.expression11, position⟩, ⟨.expression, position⟩]

/-- Where an expression may begin, so may each of the simplest ones. -/
theorem stands_expression1 {first : Rule} {follow : List Element} {position : Nat}
    (stands : Stands cypher input first stack (.reference .expression) follow position) :
    ∃ behind, Stands cypher input first (expressionFrames position ++ stack)
      (.reference .expression1) behind position := by
  have level11 := stands_begun (.enter stands rfl)
  have level10 := stands_begun (.enter level11 rfl)
  have level9 := stands_begun (.enter level10 rfl)
  have level8 := stands_at [many [.token (.keyword .NOT)]] (.enter level9 rfl) rfl
    (.sequence .done .empty)
  have level7 := stands_begun (.enter level8 rfl)
  have level6 := stands_begun (.enter level7 rfl)
  have level5 := stands_begun (.enter level6 rfl)
  have level4 := stands_begun (.enter level5 rfl)
  have level3 := stands_begun (.enter level4 rfl)
  have level2 := stands_at [many [alt [.token (.symbol .plus), .token (.symbol .minus)]]]
    (.enter level3 rfl) rfl (.sequence .done .empty)
  have level1 := stands_begun (.enter level2 rfl)
  exact ⟨_, level1⟩

/-- The kinds in front of a label that a node is given. -/
def givingLabel : List Kind := [.keyword .SET, .plainName, .symbol .colon]

theorem stands_given_label : ∃ outer follow,
    Stands cypher givingLabel Grammar.start outer (.reference .symbolicLabelNameString) follow 3 ∧
      ∀ frame ∈ outer, frame.rule ∉ ({} : Config).preferred := by
  have statement : Stands cypher givingLabel Grammar.start _ (.reference .statement) _ 0 :=
    stands_begun (.enter .start rfl)
  have regular : Stands cypher givingLabel Grammar.start _ (.reference .regularQuery) _ 0 :=
    .option (.enter statement rfl) (by simp)
  have single := stands_begun (.enter regular rfl)
  have clause := stands_begun (.enter single rfl)
  have setting : Stands cypher givingLabel Grammar.start _ (.reference .setClause) _ 0 :=
    .option (.enter clause rfl) (by simp)
  have changes := stands_at [.token (.keyword .SET)] (.enter setting rfl) rfl
    (.sequence (.token rfl) .empty)
  have change := stands_begun changes
  have plain : Spans cypher givingLabel (.reference .unescapedSymbolicNameString) 1 2 :=
    .reference rfl (.choice (List.mem_cons_self ..) (.token rfl))
  have symbolic : Spans cypher givingLabel (.reference .symbolicNameString) 1 2 :=
    .reference rfl (.choice (by simp) plain)
  have name : Spans cypher givingLabel (.reference .variableName) 1 2 :=
    .reference rfl symbolic
  have either := stands_at [.reference .variableName] (.enter change rfl) rfl
    (.sequence name .empty)
  have labels : Stands cypher givingLabel Grammar.start _ (.reference .nodeLabels) _ 2 :=
    .option either (by simp)
  have first := stands_begun (.enter labels rfl)
  have label := stands_at [.token (.symbol .colon)] first rfl (.sequence (.token rfl) .empty)
  exact ⟨_, _, label, by decide⟩

/-- The kinds in front of the label of a node inside a relationship pattern. -/
def nestedLabel : List Kind :=
  [.keyword .CREATE, .symbol .leftParen, .symbol .rightParen, .symbol .minus, .symbol .leftBracket,
    .keyword .WHERE, .keyword .EXISTS, .symbol .leftBrace, .symbol .leftParen, .symbol .colon]

/-- Two texts that end in a label, with the kinds in front of it. -/
theorem kindsBefore_label :
    kindsBefore (Stream.ofText "SET n:x".toList) = givingLabel ∧
      kindsBefore (Stream.ofText "CREATE ()-[WHERE EXISTS \x7b(:x".toList) = nestedLabel := by
  decide +kernel

theorem stands_nested_label : ∃ outer follow,
    Stands cypher nestedLabel Grammar.start outer (.reference .symbolicLabelNameString) follow 10 ∧
      ∀ frame ∈ outer, frame.rule ∉ ({} : Config).preferred := by
  -- The clause, up to the condition of its relationship pattern.
  have statement : Stands cypher nestedLabel Grammar.start _ (.reference .statement) _ 0 :=
    stands_begun (.enter .start rfl)
  have regular : Stands cypher nestedLabel Grammar.start _ (.reference .regularQuery) _ 0 :=
    .option (.enter statement rfl) (by simp)
  have single := stands_begun (.enter regular rfl)
  have clause := stands_begun (.enter single rfl)
  have creating : Stands cypher nestedLabel Grammar.start _ (.reference .createClause) _ 0 :=
    .option (.enter clause rfl) (by simp)
  have patterns := stands_at [.token (.keyword .CREATE)] (.enter creating rfl) rfl
    (.sequence (.token rfl) .empty)
  have pattern := stands_begun (.enter patterns rfl)
  have path := stands_at [opt [.reference .variableName, .token (.symbol .equals)]]
    (.enter pattern rfl) rfl (.sequence .skipped .empty)
  have chain : Stands cypher nestedLabel Grammar.start _ (seq [.reference .nodePattern,
      many [.reference .relationshipPattern, .reference .nodePattern]]) _ 1 :=
    .option (.enter path rfl) (by simp)
  have node : Spans cypher nestedLabel (.reference .nodePattern) 1 3 :=
    .reference rfl (.sequence (.token rfl) (.sequence .skipped (.sequence .skipped
      (.sequence .skipped (.sequence .skipped (.sequence (.token rfl) .empty))))))
  have pairs := stands_at [.reference .nodePattern] chain rfl (.sequence node .empty)
  have relation := stands_begun (.repeated pairs .done)
  have line : Spans cypher nestedLabel (.reference .arrowLine) 3 4 :=
    .reference rfl (.token rfl)
  have bracket := stands_at [opt [.reference .leftArrow], .reference .arrowLine]
    (.enter relation rfl) rfl (.sequence .skipped (.sequence line .empty))
  have condition := stands_at [.token (.symbol .leftBracket), opt [.reference .variableName],
    opt [.reference .labelExpression], opt [.reference .pathLength], opt [.reference .properties]]
    (.optional bracket) rfl (.sequence (.token rfl) (.sequence .skipped (.sequence .skipped
      (.sequence .skipped (.sequence .skipped .empty)))))
  have outer := stands_at [.token (.keyword .WHERE)] (.optional condition) rfl
    (.sequence (.token rfl) .empty)
  -- The patterns inside the condition.
  obtain ⟨_, simple⟩ := stands_expression1 outer
  have existing : Stands cypher nestedLabel Grammar.start _ (.reference .existsExpression) _ 6 :=
    .option (.enter simple rfl) (by simp)
  have either := stands_at [.token (.keyword .EXISTS), .token (.symbol .leftBrace)]
    (.enter existing rfl) rfl (.sequence (.token rfl) (.sequence (.token rfl) .empty))
  have inside : Stands cypher nestedLabel Grammar.start _ (seq [.reference .patternList,
      opt [.reference .whereClause]]) _ 8 := .option either (by simp)
  have pattern := stands_begun (.enter (stands_begun inside) rfl)
  have path := stands_at [opt [.reference .variableName, .token (.symbol .equals)]]
    (.enter pattern rfl) rfl (.sequence .skipped .empty)
  have chain : Stands cypher nestedLabel Grammar.start _ (seq [.reference .nodePattern,
      many [.reference .relationshipPattern, .reference .nodePattern]]) _ 8 :=
    .option (.enter path rfl) (by simp)
  have labelled := stands_at [.token (.symbol .leftParen), opt [.reference .variableName]]
    (.enter (stands_begun chain) rfl) rfl (.sequence (.token rfl) (.sequence .skipped .empty))
  have colon : Spans cypher nestedLabel
      (alt [.token (.symbol .colon), .token (.keyword .IS)]) 9 10 :=
    .choice (List.mem_cons_self ..) (.token rfl)
  have level4 := stands_at [alt [.token (.symbol .colon), .token (.keyword .IS)]]
    (.enter (.optional labelled) rfl) rfl (.sequence colon .empty)
  have level3 := stands_begun (.enter level4 rfl)
  have level2 := stands_begun (.enter level3 rfl)
  have level1 := stands_at [many [.token (.symbol .exclamation)]] (.enter level2 rfl) rfl
    (.sequence .done .empty)
  have label : Stands cypher nestedLabel Grammar.start _
      (.reference .symbolicLabelNameString) _ 10 :=
    .option (.enter level1 rfl) (by simp)
  exact ⟨_, _, label, by decide⟩

/-- A path in front of a label may go on with a name in backticks. -/
theorem meets_label (admitted : Rule → Prop) (admits : admitted .symbolicLabelNameString)
    (position : Nat) : Meets cypher admitted input (.reference .symbolicLabelNameString) position
      position .quotedName :=
  .reference admits rfl (.choice (List.mem_cons_self ..) .token)

/-- Neither pattern is ever empty. -/
theorem solid_pattern (pattern : rule ∈ [Rule.nodePattern, .relationshipPattern]) :
    ¬ Word cypher (.reference rule) [] := by
  have solid : ∀ rule ∈ [Rule.nodePattern, .relationshipPattern], ¬ vanishes rule := by decide
  exact fun nothing => solid rule pattern (canVanish_of_word cypher_vanishing nothing rfl)

/-- The relationship pattern is closed nowhere, so it is open around the label. -/
theorem relation_around_nested {outer : List Frame} {behind : List Element}
    (stands : Stands cypher nestedLabel Grammar.start outer (.reference .symbolicLabelNameString)
      behind 10) : ∃ frame ∈ outer, frame.rule = .relationshipPattern := by
  by_contra apart
  have opened : ∀ frame ∈ outer, frame.rule ∉ [Rule.relationshipPattern] := by
    simpa using apart
  have unclosed : Unclosed cypher nestedLabel [.relationshipPattern] 0 :=
    unclosed_of_reading cypher_leftRecursionFree
      (fun rule member => solid_pattern (List.mem_cons_of_mem _ member)) (by decide +kernel)
  have cut := cut_without cypher_leftRecursionFree
    (meets_of_stands stands opened (meets_label _ (by decide) 10)) unclosed
  exact absurd cut (by decide +kernel)

/-- From any relationship pattern that is open around the label, it is reached through a node. -/
theorem node_within_nested {inner outer : List Frame} {frame : Frame} {behind : List Element}
    (stands : Stands cypher nestedLabel Grammar.start (inner ++ frame :: outer)
      (.reference .symbolicLabelNameString) behind 10)
    (relation : frame.rule = .relationshipPattern) :
    ∃ frame ∈ inner, frame.rule = .nodePattern := by
  by_contra apart
  have opened : ∀ frame ∈ inner, frame.rule ∉ [Rule.nodePattern] := by
    simpa using apart
  have label := @meets_label nestedLabel (· ∉ [Rule.nodePattern]) (by decide) 10
  obtain ⟨body, defined, -, meets⟩ := exists_body_of_stands stands rfl opened label
  have whole : Meets cypher (· ∉ [Rule.nodePattern]) nestedLabel (.reference .relationshipPattern)
      frame.start 10 .quotedName := .reference (by decide) (relation ▸ defined) meets
  obtain ⟨outside, behind, entered⟩ := stands_of_open stands (List.mem_append_right inner
    (List.mem_cons_self ..))
  have word :
      Word cypher (.reference frame.rule) [.symbol .less, .symbol .minus, .symbol .minus] := by
    rw [relation]
    decide +kernel
  have viable := viable_of_stands cypher_productive rfl entered word
  have inside : frame.start ≤ 10 := by
    obtain ⟨seen, -, -, place⟩ := awaits_of_meets whole
    omega
  -- Only behind the first node can the pattern begin, and from there it does not lead on by itself.
  have places : ∀ place ≤ 10, Viable cypher Grammar.start
      (nestedLabel.take place ++ [.symbol .less, .symbol .minus, .symbol .minus]) →
      3 ≤ place ∧ ¬ (reading (without cypher [.nodePattern]) nestedLabel .relationshipPattern
        place).reaches .cut := by decide +kernel
  obtain ⟨later, stuck⟩ := places frame.start inside viable
  have unclosed : Unclosed cypher nestedLabel [.nodePattern] 3 :=
    unclosed_of_reading cypher_leftRecursionFree
      (fun rule member => solid_pattern (List.mem_singleton.mp member ▸ List.mem_cons_self ..))
      (by decide +kernel)
  exact stuck (cut_without cypher_leftRecursionFree whole (unclosed_of_le unclosed later))

theorem nearestPattern?_enclosing : nearestPattern? (stack.reverse.map (·.rule)) =
    (stack.find? fun frame => frame.rule = .nodePattern ∨ frame.rule = .relationshipPattern).map
      (·.rule) := by
  rw [nearestPattern?, ← List.map_reverse, List.reverse_reverse, List.find?_map]
  rfl

/-- The pattern nearest to the label is the node. -/
theorem nearestPattern?_nested {outer : List Frame} {behind : List Element}
    (stands : Stands cypher nestedLabel Grammar.start outer (.reference .symbolicLabelNameString)
      behind 10) : nearestPattern? (outer.reverse.map (·.rule)) = some .nodePattern := by
  rw [nearestPattern?_enclosing]
  obtain ⟨relation, opened, same⟩ := relation_around_nested stands
  have some : (outer.find? fun frame =>
      frame.rule = .nodePattern ∨ frame.rule = .relationshipPattern).isSome :=
    List.find?_isSome.mpr ⟨relation, opened, by simp [same]⟩
  obtain ⟨frame, nearest⟩ := Option.isSome_iff_exists.mp some
  rw [nearest]
  obtain ⟨pattern, inner, rest, rfl, before⟩ := List.find?_eq_some_iff_append.mp nearest
  rcases of_decide_eq_true pattern with node | relation
  · rw [Option.map_some, node]
  · obtain ⟨nearer, inside, node⟩ := node_within_nested stands relation
    simpa [node] using before nearer inside

/-- No pattern and no label expression is open around a label that a node is given. -/
theorem given_label_enclosed {outer : List Frame} {behind : List Element}
    (stands : Stands cypher givingLabel Grammar.start outer (.reference .symbolicLabelNameString)
      behind 3) : .nodePattern ∉ outer.reverse.map (·.rule) ∧
        .relationshipPattern ∉ outer.reverse.map (·.rule) ∧
        .labelExpression ∉ outer.reverse.map (·.rule) := by
  have closed (rule) (ahead : List Kind) (word : Word cypher (.reference rule) ahead)
      (misfits : ∀ place ≤ givingLabel.length,
        ¬ Viable cypher Grammar.start (givingLabel.take place ++ ahead)) :
      rule ∉ outer.reverse.map (·.rule) :=
    not_enclosing cypher_productive rfl word misfits stands
  exact ⟨closed _ [.symbol .leftParen, .symbol .rightParen] (by decide +kernel) (by decide +kernel),
    closed _ [.symbol .minus, .symbol .minus] (by decide +kernel) (by decide +kernel),
    closed _ [.keyword .IS, .symbol .percent] (by decide +kernel) (by decide +kernel)⟩

/-! ## What is offered -/

/-- What a place for a label or relationship type offers, whatever the text, the catalog and the
place: the relationship types where a relationship pattern is open anywhere around it, else the
labels where a node pattern is, else the types and then the labels in a label expression, and
nothing among the labels that a node is given or loses. -/
theorem label_slot_offers {stream : List Token} {index depth : Nat} {candidates : Candidates}
    {candidate : RuleCandidate}
    (ran : collect cypher Grammar.start stream index ({} : Config).preferred ({} : Config).ignored
      depth = .ok candidates)
    (member : candidate ∈ candidates.rules) (label : candidate.rule = .symbolicLabelNameString)
    (catalog : Catalog) (tokens : List Token) :
    (classify candidate catalog tokens).items =
        (if .relationshipPattern ∈ candidate.enclosing then
          items catalog.relationshipTypes .typeParameter
        else if .nodePattern ∈ candidate.enclosing then items catalog.labels .typeParameter
        else if .labelExpression ∈ candidate.enclosing then
          items (catalog.relationshipTypes ++ catalog.labels) .typeParameter
        else []) ∧
      (.labelExpression ∉ candidate.enclosing ↔ candidate.enclosing.getLast? = some .nodeLabels) ∧
      (.labelExpression ∉ candidate.enclosing →
        .setItem ∈ candidate.enclosing ∨ .removeItem ∈ candidate.enclosing) := by
  obtain ⟨outer, behind, same, stands⟩ :=
    @stands_of_label (tokensUntil index stream) _ _ (collect_backed ran) member label
  have around : AroundLabel candidate.enclosing := by
    rw [same]
    exact aroundLabel_of_around (around_of_stands stands)
  exact ⟨items_of_aroundLabel label around catalog tokens, around.among.symm,
    fun apart => around.changed (around.among.mpr apart)⟩

/-- A catalog with one label and one relationship type. -/
def smallCatalog : Catalog :=
  { labels := [.ofString "Person"], relationshipTypes := [.ofString "KNOWS"] }

/-- Inside the condition of a relationship pattern the relationship type is offered for a node. -/
theorem nested_node_offers_types : ∃ candidates candidate,
    candidatesOf ⟨3000, 3000⟩ (Stream.ofText "CREATE ()-[WHERE EXISTS \x7b(:x".toList) =
        .ok candidates ∧
      candidate ∈ candidates.rules ∧ candidate.rule = .symbolicLabelNameString ∧
      (classify candidate smallCatalog
        (Stream.ofText "CREATE ()-[WHERE EXISTS \x7b(:x".toList).toList).items =
          [⟨.ofString "KNOWS", .typeParameter⟩] := by
  obtain ⟨candidates, candidate, outer, behind, ran, member, label, enclosing, stands⟩ :=
    exists_label_candidate ⟨3000, 3000⟩ kindsBefore_label.2 (by decide) stands_nested_label
  have relation : .relationshipPattern ∈ candidate.enclosing := by
    rw [enclosing, mem_enclosing]
    exact relation_around_nested stands
  refine ⟨candidates, candidate, ran, member, label, ?_⟩
  rw [(label_slot_offers ran member label smallCatalog _).1, if_pos relation]
  rfl

/-- The nearest pattern does not decide what is offered for a label. For a node inside the condition
of a relationship pattern it is the relationship types, not the labels; and where no pattern is open
nothing is offered for a label that a node is given. -/
theorem nearest_pattern_overruled :
    (∃ candidates candidate,
      candidatesOf ⟨3000, 3000⟩ (Stream.ofText "CREATE ()-[WHERE EXISTS \x7b(:x".toList) =
          .ok candidates ∧
        candidate ∈ candidates.rules ∧ candidate.rule = .symbolicLabelNameString ∧
        nearestPattern? candidate.enclosing = some .nodePattern ∧
        (classify candidate smallCatalog
          (Stream.ofText "CREATE ()-[WHERE EXISTS \x7b(:x".toList).toList).items ≠
            items smallCatalog.labels .typeParameter) ∧
    ∃ candidates candidate,
      candidatesOf ⟨3000, 3000⟩ (Stream.ofText "SET n:x".toList) = .ok candidates ∧
        candidate ∈ candidates.rules ∧ candidate.rule = .symbolicLabelNameString ∧
        nearestPattern? candidate.enclosing = none ∧
        (classify candidate smallCatalog (Stream.ofText "SET n:x".toList).toList).items ≠
          items (smallCatalog.relationshipTypes ++ smallCatalog.labels) .typeParameter := by
  constructor
  · obtain ⟨candidates, candidate, outer, behind, ran, member, label, enclosing, stands⟩ :=
      exists_label_candidate ⟨3000, 3000⟩ kindsBefore_label.2 (by decide) stands_nested_label
    have around := aroundLabel_of_around (around_of_stands stands)
    rw [← enclosing] at around
    have relation : .relationshipPattern ∈ candidate.enclosing := by
      rw [enclosing, mem_enclosing]
      exact relation_around_nested stands
    refine ⟨candidates, candidate, ran, member, label, ?_, ?_⟩
    · rw [enclosing, nearestPattern?_nested stands]
    · rw [items_of_aroundLabel label around, if_pos relation]
      decide
  · obtain ⟨candidates, candidate, outer, behind, ran, member, label, enclosing, stands⟩ :=
      exists_label_candidate ⟨3000, 3000⟩ kindsBefore_label.1 (by decide) stands_given_label
    have around := aroundLabel_of_around (around_of_stands stands)
    rw [← enclosing] at around
    obtain ⟨node, relation, expression⟩ := given_label_enclosed stands
    rw [← enclosing] at node relation expression
    refine ⟨candidates, candidate, ran, member, label, ?_, ?_⟩
    · refine List.find?_eq_none.mpr fun rule opened pattern => ?_
      rcases of_decide_eq_true pattern with rfl | rfl
      · exact node (List.mem_reverse.mp opened)
      · exact relation (List.mem_reverse.mp opened)
    · rw [items_of_aroundLabel label around, if_neg relation, if_neg node, if_neg expression]
      decide

end CypherAssist.Completion
