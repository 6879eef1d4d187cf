import CypherAssist.Proofs.Grammar.Order
import CypherAssist.Proofs.Grammar.Phase
import CypherAssist.Proofs.Grammar.Plain

/-! The null test. Behind an operand, the words IS NULL test for a missing value, and they also read
as a test for a label of that name, which ends at the same place. The label would belong to the
operand. Of the two readings the first one is kept: wherever the operand ends behind the words, it
has been found to end in front of them before. -/
namespace CypherAssist.Grammar
open Token Outcomes Parts

/-! ## Words that end in a null test -/

/-- How a text ends: with the word IS, with IS and NULL behind it, or in another way. -/
inductive Ending where
  | plain | test | tested
  deriving DecidableEq

namespace Ending

/-- The rules whose words do not end in IS and NULL unless IS stood in front of them. -/
def untested : List Rule :=
  [.expression1, .literal, .numberLiteral, .stringLiteral, .mapLiteral, .listLiteral, .parameter,
    .caseExpression, .existsExpression, .parenthesizedExpression, .functionInvocation,
    .variableName, .propertyLookup, .propertyKeyName, .labelExpression4, .labelExpression3,
    .labelExpression2, .labelExpression1, .symbolicLabelNameString, .symbolicNameString,
    .escapedSymbolicNameString, .unescapedSymbolicNameString]

/-- Texts by how they end. -/
def scheme : Scheme Ending where
  all := [.plain, .test, .tested]
  listed phase := by cases phase <;> decide
  advance
    | _, .keyword .IS => .test
    | .test, .keyword .NULL => .tested
    | _, _ => .plain
  ends rule
    | .plain => if rule ∈ untested then [.plain, .test] else [.plain, .test, .tested]
    | _ => [.plain, .test, .tested]

theorem scheme_closed : scheme.Closed cypher := by
  have checked : ∀ rule ∈ Rule.all, ∀ phase ∈ scheme.all,
      scheme.leads (definition rule) phase ⊆ scheme.ends rule phase := by
    decide +kernel
  rintro rule element ⟨rfl⟩ phase
  exact checked rule (Rule.mem_all rule) phase (scheme.listed phase)

theorem after_null_test (phase : Ending) (front : List Kind) :
    scheme.after phase (front ++ [.keyword .IS, .keyword .NULL]) = .tested := by
  rw [Scheme.after_append]
  cases scheme.after phase front <;> rfl

end Ending

/-- The words IS NULL stand in the text, the first of them at this position. -/
structure NullTest (input : List Kind) (test : Nat) : Prop where
  first : input[test]? = some (.keyword .IS)
  second : input[test + 1]? = some (.keyword .NULL)

variable {input : List Kind} {test origin : Nat}

/-- An element of which no word ends in a null test does not end behind one, unless it starts within
it. -/
theorem not_spans_tested (stands : NullTest input test)
    (safe : .tested ∉ Ending.scheme.leads element .plain) (before : origin ≤ test) :
    ¬ Spans cypher input element origin (test + 2) := by
  intro spans
  obtain ⟨kinds, word, placed, ends⟩ := word_of_spans spans
  have length : kinds.length = test - origin + 2 := by omega
  have at? (place : Nat) (inside : place < kinds.length) :
      kinds[place]? = input[origin + place]? := by
    rw [List.prefix_iff_eq_take.mp placed, List.getElem?_take_of_lt inside, List.getElem?_drop]
  have split : kinds = kinds.take (test - origin) ++ [.keyword .IS, .keyword .NULL] := by
    have one := at? (test - origin) (by omega)
    have two := at? (test - origin + 1) (by omega)
    rw [show origin + (test - origin) = test by omega, stands.first] at one
    rw [show origin + (test - origin + 1) = test + 1 by omega,
      stands.second] at two
    obtain ⟨_, first⟩ := List.getElem?_eq_some_iff.mp one
    obtain ⟨_, second⟩ := List.getElem?_eq_some_iff.mp two
    conv_lhs => rw [← List.take_append_drop (test - origin) kinds]
    rw [List.drop_eq_getElem_cons (by omega), List.drop_eq_getElem_cons (by omega), first, second,
      List.drop_eq_nil_of_le (by omega)]
  have tested := Scheme.after_mem_leads Ending.scheme_closed word .plain
  rw [split, Ending.after_null_test] at tested
  exact safe tested

/-- What is put behind an operand ends behind a null test only if it is the test for a label. -/
theorem eq_of_postfix (stands : NullTest input test)
    (spans : Spans cypher input (.reference .postfixOperator) origin (test + 2)) :
    origin = test := by
  obtain ⟨kind, rest, opens, other, spans, safe⟩ : ∃ kind rest, input[origin]? = some kind ∧
      kind ≠ .keyword .NULL ∧ Spans cypher input rest (origin + 1) (test + 2) ∧
      .tested ∉ Ending.scheme.leads rest .plain := by
    rw [spans_reference_iff rfl, definition, Element.alt, spans_choice_iff] at spans
    obtain ⟨option, member, spans⟩ := spans
    simp only [List.mem_cons, List.not_mem_nil, or_false] at member
    rcases member with rfl | rfl | rfl
    · obtain ⟨_, ⟨opens⟩, spans⟩ := spans_cons_iff.mp ((spans_reference_iff rfl).mp spans)
      exact ⟨_, _, opens, by decide, spans, by decide +kernel⟩
    · obtain ⟨_, sign, spans⟩ := spans_cons_iff.mp ((spans_reference_iff rfl).mp spans)
      obtain ⟨mark, among, sign⟩ := spans_choice_iff.mp sign
      simp only [List.mem_cons, List.not_mem_nil, or_false] at among
      rcases among with rfl | rfl
      · obtain ⟨opens⟩ := sign
        exact ⟨_, _, opens, by decide, spans, by decide +kernel⟩
      · obtain ⟨opens⟩ := sign
        exact ⟨_, _, opens, by decide, spans, by decide +kernel⟩
    · obtain ⟨_, ⟨opens⟩, spans⟩ := spans_cons_iff.mp spans
      exact ⟨_, _, opens, by decide, spans, by decide +kernel⟩
  have ordered := spans_le spans
  have notNull : origin ≠ test + 1 := by
    rintro rfl
    rw [stands.second] at opens
    exact other (Option.some.inj opens).symm
  by_contra different
  exact not_spans_tested stands safe (by omega) spans

/-! ## Operands -/

/-- From each place up to the null test, the readings of the rule end in front of the test before
they end behind it. -/
def EndsFirst (input : List Kind) (test : Nat) (rule : Rule) : Prop :=
  ∀ origin ≤ test, Precedes test (test + 2) (reading cypher input rule origin)

/-- What holds of the order that the parts of a rule keep holds of the order that the rule keeps. -/
theorem precedes_reading (defined : definition rule = element)
    (ordered : Precedes test (test + 2) (element.read input (reading cypher input) origin)) :
    Precedes test (test + 2) (reading cypher input rule origin) := by
  rw [reading_eq cypher_leftRecursionFree (congrArg some defined)]
  exact precedes_map _ ordered

theorem read_pair (descend : Rule → Nat → Outcomes Derivation) (one other : Element) :
    (Element.sequence [one, other]).read input descend origin =
      extended (fun start => other.read input descend start)
        (extended (fun start => one.read input descend start) [(.upTo origin, [])]) := by
  simp only [Element.read, Element.readInOrder]

/-- Where the second part keeps the order from all places that the first one leads to, both do. -/
theorem precedes_pair_of_each {one other : Element}
    (each : ∀ position, Spans cypher input one origin position →
      Precedes test (test + 2) (other.read input (reading cypher input) position)) :
    Precedes test (test + 2)
      ((Element.sequence [one, other]).read input (reading cypher input) origin) := by
  rw [read_pair]
  refine precedes_extended_of_each fun position reached => each position ?_
  obtain ⟨impossible, -⟩ | ⟨start, begun, stepped⟩ := reaches_extended.mp reached
  · cases impossible
  · obtain rfl := reaches_upTo_singleton begun
    exact (read_reaches_iff cypher_leftRecursionFree).mp stepped

/-- A part and a repetition behind it keep the order if the part does, and the item of the
repetition but for its steps from the test. -/
theorem precedes_pair {one item : Element}
    (front : Precedes test (test + 2) (one.read input (reading cypher input) origin))
    (each : ∀ position, position ≠ test →
      Precedes test (test + 2) (item.read input (reading cypher input) position)) :
    Precedes test (test + 2)
      ((Element.sequence [one, .repeated item]).read input (reading cypher input) origin) := by
  rw [read_pair]
  refine precedes_extended (by omega) (precedes_extended_of_each fun position reached => ?_)
    ((read_reaches_iff cypher_leftRecursionFree).mpr .done) fun position elsewhere => ?_
  · obtain rfl := reaches_upTo_singleton reached
    exact front
  · rw [Element.read]
    exact precedes_iterated _ (.later (by simpa using elsewhere) .nil) (by simp) each

/-- A single operand with something behind it. -/
theorem endsFirst_expression2 (stands : NullTest input test) :
    EndsFirst input test .expression2 := by
  have safe : .tested ∉ Ending.scheme.leads (.reference .expression1) .plain := by decide +kernel
  have defined : definition .expression2 =
      .sequence [.reference .expression1, .repeated (.reference .postfixOperator)] := rfl
  refine fun origin before => precedes_reading defined
    (precedes_pair ?_ fun position elsewhere => ?_)
  · refine precedes_of_not_reaches fun ends => ?_
    exact not_spans_tested stands safe before ((read_reaches_iff cypher_leftRecursionFree).mp ends)
  · refine precedes_of_not_reaches fun ends => elsewhere ?_
    exact eq_of_postfix stands ((read_reaches_iff cypher_leftRecursionFree).mp ends)

/-- Signs lead from one place to the next, and a null test is none of them. -/
def Signs (input : List Kind) (test : Nat) (sign : Element) : Prop :=
  ∀ start stop, Spans cypher input sign start stop →
    stop = start + 1 ∧ start ≠ test ∧ start ≠ test + 1

theorem signs_of_token (stands : NullTest input test) {symbol : Symbol} :
    Signs input test (.token (.symbol symbol)) := by
  rintro start stop ⟨found⟩
  refine ⟨rfl, ?_, ?_⟩
  · rintro rfl
    simp [stands.first] at found
  · rintro rfl
    simp [stands.second] at found

theorem signs_of_choice (stands : NullTest input test) (symbols : List Symbol) :
    Signs input test (.choice (symbols.map fun symbol => .token (.symbol symbol))) := by
  intro start stop spans
  obtain ⟨option, member, chosen⟩ := spans_choice_iff.mp spans
  obtain ⟨symbol, -, rfl⟩ := List.mem_map.mp member
  exact signs_of_token stands start stop chosen

/-- Signs in front of an operand. -/
theorem endsFirst_expression3 (stands : NullTest input test)
    (inner : EndsFirst input test .expression2) : EndsFirst input test .expression3 := by
  have defined : definition .expression3 = .sequence [.repeated (.choice
      [.token (.symbol .plus), .token (.symbol .minus)]), .reference .expression2] := rfl
  refine fun origin before => precedes_reading defined
    (precedes_pair_of_each fun position passed => precedes_map _ (inner position ?_))
  -- the signs do not lead over the test
  rw [spans_repeated_iff] at passed
  induction passed with
  | refl => exact before
  | tail _ last ih =>
    obtain ⟨rfl, notTest, -⟩ := signs_of_choice stands [.plus, .minus] _ _ last
    omega

/-- Operands with operators between them, each operator a single sign. -/
theorem endsFirst_of_infix {outer inner : Rule} {sign : Element}
    (defined : definition outer =
      .sequence [.reference inner, .repeated (.sequence [sign, .reference inner])])
    (signs : Signs input test sign) (inside : EndsFirst input test inner) :
    EndsFirst input test outer := by
  refine fun origin before => precedes_reading defined
    (precedes_pair (precedes_map _ (inside origin before)) fun position elsewhere => ?_)
  rcases Nat.lt_or_gt_of_ne elsewhere with early | late
  · refine precedes_pair_of_each fun middle passed => precedes_map _ (inside middle ?_)
    obtain ⟨rfl, -⟩ := signs _ _ passed
    exact early
  · refine precedes_of_not_reaches fun ends => ?_
    obtain ⟨middle, first, second⟩ :=
      spans_cons_iff.mp ((read_reaches_iff cypher_leftRecursionFree).mp ends)
    obtain ⟨rfl, -, notNull⟩ := signs _ _ first
    have ordered := spans_le second
    omega

theorem endsFirst_expression6 (stands : NullTest input test) :
    EndsFirst input test .expression6 := by
  have third := endsFirst_expression3 stands (endsFirst_expression2 stands)
  have fourth : EndsFirst input test .expression4 :=
    endsFirst_of_infix rfl (signs_of_token stands) third
  have fifth : EndsFirst input test .expression5 :=
    endsFirst_of_infix rfl (signs_of_choice stands [.times, .divide, .percent]) fourth
  exact endsFirst_of_infix rfl (signs_of_choice stands [.plus, .minus]) fifth

/-! ## The comparison -/

/-- A rule that is referred to adds one node, which is whole unless the text ends inside it. -/
theorem mem_read_reference {reach : Reach} {children : List Derivation}
    (member : (reach, children) ∈
      (Element.reference rule).read input (reading cypher input) origin) :
    ∃ inner, children = [.node rule (reach = .cut) inner] := by
  rw [Element.read, reading_eq cypher_leftRecursionFree rfl] at member
  obtain ⟨⟨_, derivation⟩, inside, same⟩ := List.mem_map.mp member
  cases same
  obtain ⟨inner, -, rfl⟩ := mem_close.mp inside
  exact ⟨inner, rfl⟩

/-- Behind an operand that ends in front of a null test, the test is a comparison. -/
theorem comparison_of_expression7 (stands : NullTest input test)
    (ends : Spans cypher input (.reference .expression6) origin test) :
    ∃ six inner, (reading cypher input .expression7 origin).at? (.upTo (test + 2)) =
      some (.node .expression7 false
        [.node .expression6 false six, .node .comparisonExpression6 false inner]) := by
  have compares : Spans cypher input (.reference .comparisonExpression6) test (test + 2) := by
    refine .reference rfl (.choice (List.mem_cons_of_mem _ (List.mem_cons_self ..)) ?_)
    exact .sequence (.token stands.first) (.sequence (.token stands.second) .empty)
  have reaches : (reading cypher input .expression7 origin).reaches (.upTo (test + 2)) :=
    (reading_reaches_iff cypher_leftRecursionFree).mpr
      (.reference rfl (.sequence ends (.sequence (.taken compares) .empty)))
  obtain ⟨derivation, kept⟩ := Option.ne_none_iff_exists'.mp fun none =>
    at?_eq_none_iff.mp none reaches
  have member := mem_of_at? kept
  rw [reading_eq cypher_leftRecursionFree rfl] at member
  obtain ⟨children, inside, rfl⟩ := mem_close.mp member
  have before : origin ≤ test := by
    have ordered := spans_le ends
    omega
  have operand : Precedes test (test + 2)
      (extended (fun start => (Element.reference .expression6).read input (reading cypher input)
        start) [(.upTo origin, [])]) := by
    refine precedes_extended_of_each fun position reached => precedes_map _ ?_
    obtain rfl := reaches_upTo_singleton reached
    exact endsFirst_expression6 stands _ before
  obtain ⟨position, front, back, elsewhere, first, second, rfl⟩ :=
    ne_of_mem_extended (by omega) operand
      ((read_reaches_iff cypher_leftRecursionFree).mpr (.taken compares)) inside
  obtain ⟨impossible, -⟩ | ⟨start, begun, added, only, stepped, rfl⟩ := mem_extended first
  · cases impossible
  obtain ⟨rfl, rfl⟩ : start = origin ∧ begun = [] := by simpa using only
  obtain ⟨six, rfl⟩ := mem_read_reference stepped
  rw [Element.read] at second
  rcases mem_of_mem_merge second with compared | skipped
  · obtain ⟨inner, rfl⟩ := mem_read_reference compared
    exact ⟨six, inner, by simpa using kept⟩
  · obtain ⟨here, -⟩ : test + 2 = position ∧ back = [] := by simpa using skipped
    exact absurd here.symm elsewhere

variable {kinds : Array Kind} {depth : Nat} {state other after : ParserState}

/-- In whatever way a parser of Cypher has been used, it gives the plain reading of a rule. -/
theorem parseRule_reads (deep : fullDepth kinds.size ≤ depth) (used : Used cypher kinds depth state)
    (rule : Rule) (position : Nat) :
    ∃ after, parseRule cypher kinds depth rule position state =
      .ok (reading cypher kinds.toList rule position, after) := by
  have echoes {state : ParserState} (used : Used cypher kinds depth state) :=
    run_echoes cypher_leftRecursionFree deep rule position
      (trusts_of_used cypher_leftRecursionFree deep used)
  have defined : (cypher rule).isSome := rfl
  obtain ⟨found, begun, ran⟩ :=
    parseFrom_succeeds cypher_leftRecursionFree cypher_closed defined deep position
  have performs := performs_of_parsed cypher_leftRecursionFree ran
  rw [parseFrom, StateT.run] at ran
  have same := (@plainRule_steady cypher kinds depth rule position).blind {} state
  cases fresh : plainRule cypher kinds depth rule position {} with
  | error obstacle => cases ran.symm.trans ((echoes .fresh).1 obstacle fresh)
  | ok outcome =>
    obtain ⟨behind, passed, -⟩ := (echoes .fresh).2 _ _ fresh
    obtain ⟨known, -⟩ := Prod.mk.inj (Except.ok.inj (ran.symm.trans passed))
    rw [fresh] at same
    obtain ⟨again, plain, alike⟩ := exists_of_map_eq_ok same.symm
    obtain ⟨after, gives, -⟩ := (echoes used).2 _ _ plain
    exact ⟨after, by rw [gives, ← performs.1, known, alike]⟩

/-- The parser prefers a null test over a test for a label. Where an operand is found that ends in
front of the words IS NULL, the expression around it is found to end behind them, and what is kept
of it there is the operand and a comparison. -/
theorem null_test_preferred (deep : fullDepth kinds.size ≤ depth)
    (used : Used cypher kinds depth state) (also : Used cypher kinds depth other)
    (ran : parseRule cypher kinds depth .expression6 origin state = .ok (found, after))
    (ends : found.reaches (.upTo test)) (first : kinds[test]? = some (.keyword .IS))
    (second : kinds[test + 1]? = some (.keyword .NULL)) :
    ∃ whole behind six inner,
      parseRule cypher kinds depth .expression7 origin other = .ok (whole, behind) ∧
      whole.at? (.upTo (test + 2)) = some (.node .expression7 false
        [.node .expression6 false six, .node .comparisonExpression6 false inner]) := by
  obtain ⟨_, reads⟩ := parseRule_reads deep used .expression6 origin
  rw [(Prod.mk.inj (Except.ok.inj (ran.symm.trans reads))).1] at ends
  obtain ⟨behind, gives⟩ := parseRule_reads deep also .expression7 origin
  have stands : NullTest kinds.toList test := ⟨by simpa using first, by simpa using second⟩
  obtain ⟨six, inner, kept⟩ :=
    comparison_of_expression7 stands ((reading_reaches_iff cypher_leftRecursionFree).mp ends)
  exact ⟨_, behind, six, inner, gives, kept⟩

/-- The sum of two names tested for null is no sum that ends in a label. -/
theorem sum_tested_for_null :
    ∃ whole behind six inner,
      parseRule cypher #[.plainName, .symbol .plus, .plainName, .keyword .IS, .keyword .NULL]
        (fullDepth 5) .expression7 0 {} = .ok (whole, behind) ∧
      whole.at? (.upTo 5) = some (.node .expression7 false
        [.node .expression6 false six, .node .comparisonExpression6 false inner]) := by
  obtain ⟨after, ran⟩ := @parseRule_reads #[.plainName, .symbol .plus, .plainName, .keyword .IS,
    .keyword .NULL] (fullDepth 5) {} (Nat.le_refl _) .fresh .expression6 0
  have word : Word cypher (.reference .expression6) [.plainName, .symbol .plus, .plainName] := by
    decide +kernel
  refine null_test_preferred (Nat.le_refl _) .fresh .fresh ran ?_ rfl rfl
  exact (reading_reaches_iff cypher_leftRecursionFree).mpr
    (spans_of_word word (List.prefix_append _ _))

end CypherAssist.Grammar
