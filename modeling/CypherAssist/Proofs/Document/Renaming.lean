import CypherAssist.Proofs.Document.Diagnostics
import Mathlib.Data.List.Forall2

/-! Keywords in place of names. Wherever the grammar asks for a plain name it takes any keyword
instead, so a document stays one, and a beginning stays one, whichever of its names are exchanged
for keywords. -/
namespace CypherAssist.Document
open Token Grammar Outcomes Element

variable {limits : Limits}

/-- A kind of token with what may be put in its place: itself, or any keyword if it is a name. -/
inductive Renames : Kind → Kind → Prop where
  | kept {kind : Kind} : Renames kind kind
  | exchanged (word : Keyword) : Renames .plainName (.keyword word)

instance : Std.Refl Renames := ⟨fun _ => .kept⟩

/-- An element that asks for a plain name itself. -/
def asksForName : Element → Bool
  | .token kind => kind = .plainName
  | _ => false

/-- The rules that ask for a plain name. -/
def isNaming (rule : Rule) : Prop :=
  rule = .unescapedSymbolicNameString ∨ rule = .symbolicLabelNameString

variable {kinds others : List Kind}

/-- Two lists related in order split alike. -/
private theorem forall₂_append_left {relation : α → β → Prop} {first second : List α}
    {whole : List β} (related : List.Forall₂ relation (first ++ second) whole) :
    ∃ left right, whole = left ++ right ∧ List.Forall₂ relation first left ∧
      List.Forall₂ relation second right := by
  refine ⟨whole.take first.length, whole.drop first.length, (List.take_append_drop ..).symm,
    ?_, ?_⟩
  · simpa using List.forall₂_take first.length related
  · simpa using List.forall₂_drop first.length related

/-! ## Words -/

/-- Any other rule leaves names to the rules it refers to. -/
theorem asksForName_definition (other : ¬ isNaming rule) :
    ∀ part ∈ (definition rule).subelements, asksForName part = false := by
  have checked : ∀ rule ∈ Rule.all, rule ≠ .unescapedSymbolicNameString →
      rule ≠ .symbolicLabelNameString →
      ∀ part ∈ (definition rule).subelements, asksForName part = false := by decide
  obtain ⟨plain, label⟩ := not_or.mp other
  exact checked rule (Rule.mem_all rule) plain label

/-- A choice between tokens that lists every keyword. -/
structure TakesKeywords (options : List Element) : Prop where
  tokens : ∀ option ∈ options, ∃ kind, option = .token kind
  keywords : ∀ word, .token (.keyword word) ∈ options

theorem takesKeywords_names : TakesKeywords names where
  tokens _ := exists_token_of_mem_names
  keywords word := List.mem_cons_of_mem _ (List.mem_map_of_mem (Keyword.mem_all word))

theorem takesKeywords_cons (takes : TakesKeywords options) (kind : Kind) :
    TakesKeywords (.token kind :: options) where
  tokens option member := by
    rcases List.mem_cons.mp member with rfl | member
    · exact ⟨kind, rfl⟩
    · exact takes.tokens option member
  keywords word := List.mem_cons_of_mem _ (takes.keywords word)

/-- What is read as one of the tokens is so after an exchange. -/
theorem word_of_takesKeywords {grammar : Grammar} (takes : TakesKeywords options)
    (derived : Word grammar (.choice options) kinds)
    (exchange : List.Forall₂ Renames kinds others) :
    Word grammar (.choice options) others := by
  cases derived with
  | choice member chosen =>
    obtain ⟨kind, rfl⟩ := takes.tokens _ member
    cases chosen
    obtain ⟨other, rest, one, nothing, rfl⟩ := List.forall₂_cons_left_iff.mp exchange
    cases nothing
    cases one with
    | kept => exact .choice member .token
    | exchanged word => exact .choice (takes.keywords word) .token

/-- A rule that asks for a plain name is a choice that lists every keyword. -/
theorem definition_of_isNaming (naming : isNaming rule) :
    ∃ options, definition rule = .choice options ∧ TakesKeywords options := by
  rcases naming with rfl | rfl
  · exact ⟨names, rfl, takesKeywords_names⟩
  · exact ⟨_, rfl, takesKeywords_cons takesKeywords_names .quotedName⟩

/-- Outside the rules that ask for a plain name nothing changes, and inside them a keyword is
another of the options. -/
theorem word_renamed (derived : Word cypher element kinds)
    (indirect : ∀ part ∈ element.subelements, asksForName part = false)
    (exchange : List.Forall₂ Renames kinds others) : Word cypher element others := by
  induction derived generalizing others with
  | token =>
    obtain ⟨other, rest, one, nothing, rfl⟩ := List.forall₂_cons_left_iff.mp exchange
    cases nothing
    cases one with
    | kept => exact .token
    | exchanged =>
      have apart := indirect _ (mem_subelements_self _)
      simp [asksForName] at apart
  | @reference rule element word defined body ih =>
    cases defined
    refine .reference rfl ?_
    by_cases naming : isNaming rule
    · obtain ⟨options, same, takes⟩ := definition_of_isNaming naming
      rw [same] at body ⊢
      exact word_of_takesKeywords takes body exchange
    · exact ih (asksForName_definition naming) exchange
  | empty => cases exchange; exact .empty
  | skipped => cases exchange; exact .skipped
  | done => cases exchange; exact .done
  | @sequence item word rest words _ _ ihFirst ihSecond =>
    obtain ⟨left, right, rfl, first, second⟩ := forall₂_append_left exchange
    simp only [subelements, subelementsOfAll, List.mem_cons, List.mem_append] at indirect
    refine .sequence (ihFirst (fun part inside => indirect part (.inr (.inl inside))) first)
      (ihSecond (fun part inside => ?_) second)
    rcases List.mem_cons.mp inside with rfl | inside
    · rfl
    · exact indirect part (.inr (.inr inside))
  | choice member _ ih =>
    exact .choice member (ih (fun part inside => indirect part
      (List.mem_cons_of_mem _ (mem_subelementsOfAll.mpr ⟨_, member, inside⟩))) exchange)
  | taken _ ih =>
    exact .taken (ih (fun part inside => indirect part (List.mem_cons_of_mem _ inside)) exchange)
  | again _ _ ihFirst ihSecond =>
    obtain ⟨left, right, rfl, first, second⟩ := forall₂_append_left exchange
    exact .again
      (ihFirst (fun part inside => indirect part (List.mem_cons_of_mem _ inside)) first)
      (ihSecond indirect second)

/-- A word of a rule with some of its names exchanged is a word of the rule. -/
theorem word_exchanged (derived : Word cypher (.reference rule) kinds)
    (exchange : List.Forall₂ Renames kinds others) : Word cypher (.reference rule) others := by
  refine word_renamed derived (fun part inside => ?_) exchange
  cases List.mem_singleton.mp inside
  rfl

/-! ## Documents -/

/-- A document in which names are exchanged for keywords is again read to its end, and a proper
beginning of one is again cut short at its end, to whatever depth a parser gets through; it gets
through to any depth that is large enough. No text with these visible tokens has one that does not
fit, and for a document it has no problem but those of reading the text and of its depth. -/
theorem keywords_serve_as_names (exchange : List.Forall₂ Renames kinds others) :
    (∀ depth, fullDepth others.length ≤ depth → ∃ found state,
      parseFrom cypher others.toArray depth Grammar.start 0 = .ok (found, state)) ∧
    (Word cypher (.reference Grammar.start) kinds →
      (∀ depth found state,
        parseFrom cypher others.toArray depth Grammar.start 0 = .ok (found, state) →
          found.reaches (.upTo others.length)) ∧
      ∀ text, visibleKinds (Document.parse limits text).stream = others →
        ∀ issue ∈ (Document.parse limits text).issues,
          issue ∈ lexicalIssues (Document.parse limits text).stream ∨ issue.problem = .tooDeep) ∧
    ∀ more, more ≠ [] → Word cypher (.reference Grammar.start) (kinds ++ more) →
      (∀ depth found state,
        parseFrom cypher others.toArray depth Grammar.start 0 = .ok (found, state) →
          found.reaches .cut) ∧
      ∀ text, visibleKinds (Document.parse limits text).stream = others →
        ∀ issue ∈ (Document.parse limits text).issues, ∀ seen expected,
          issue.problem ≠ .unexpected seen expected := by
  refine ⟨fun depth deep => ?_, fun word => ⟨fun depth found state ran => ?_,
    fun text same issue member => ?_⟩, fun more some word => ⟨fun depth found state ran => ?_,
    fun text same => ?_⟩⟩
  · exact parseFrom_succeeds cypher_leftRecursionFree cypher_closed rfl (by simpa using deep) 0
  · have exact := parseFrom_exact cypher_leftRecursionFree (Nat.zero_le _) ran
    refine (exact.ends others.length).mpr ⟨Nat.zero_le _, Nat.le_refl _, ?_⟩
    simpa using word_exchanged word exchange
  · obtain ⟨issues, parsed, all⟩ := parse_parsed limits text
    rw [all, List.mem_append] at member
    have document : Word cypher (.reference Grammar.start)
        (visibleKinds (Document.parse limits text).stream) := same ▸ word_exchanged word exchange
    exact member.imp_right (tooDeep_of_parsed parsed document issue)
  · have exact := parseFrom_exact cypher_leftRecursionFree (Nat.zero_le _) ran
    refine exact.unfinished.mpr (cypher_awaits_iff.mpr ⟨more, some, ?_⟩)
    exact word_exchanged word (List.rel_append exchange (List.forall₂_refl more))
  · have viable : Viable cypher Grammar.start (visibleKinds (Document.parse limits text).stream) :=
      same ▸ ⟨more, word_exchanged word (List.rel_append exchange (List.forall₂_refl more))⟩
    exact not_unexpected_of_viable viable

/-- A node and what is returned may both be called by the word that begins the clause. -/
theorem match_serves_as_name :
    List.Forall₂ Renames
        [.keyword .MATCH, .symbol .leftParen, .plainName, .symbol .rightParen, .keyword .RETURN,
          .plainName]
        [.keyword .MATCH, .symbol .leftParen, .keyword .MATCH, .symbol .rightParen,
          .keyword .RETURN, .keyword .MATCH] ∧
      (∃ found state, parseFrom cypher
        #[.keyword .MATCH, .symbol .leftParen, .keyword .MATCH, .symbol .rightParen,
          .keyword .RETURN, .keyword .MATCH] (fullDepth 6) Grammar.start 0 = .ok (found, state) ∧
          found.reaches (.upTo 6)) ∧
      (Document.parse ⟨3000, 3000⟩ "MATCH (match) RETURN match").issues = [] := by
  have exchange : List.Forall₂ Renames
      [.keyword .MATCH, .symbol .leftParen, .plainName, .symbol .rightParen, .keyword .RETURN,
        .plainName]
      [.keyword .MATCH, .symbol .leftParen, .keyword .MATCH, .symbol .rightParen,
        .keyword .RETURN, .keyword .MATCH] :=
    .cons .kept (.cons .kept (.cons (.exchanged .MATCH) (.cons .kept (.cons .kept
      (.cons (.exchanged .MATCH) .nil)))))
  obtain ⟨deep, document, -⟩ := keywords_serve_as_names exchange
  obtain ⟨reads, reported⟩ := document (by decide +kernel)
  obtain ⟨found, state, ran⟩ := deep (fullDepth 6) (Nat.le_refl _)
  refine ⟨exchange, ⟨found, state, ran, reads _ _ _ ran⟩, ?_⟩
  have kinds : visibleKinds (Document.parse ⟨3000, 3000⟩ "MATCH (match) RETURN match").stream =
      [.keyword .MATCH, .symbol .leftParen, .keyword .MATCH, .symbol .rightParen,
        .keyword .RETURN, .keyword .MATCH] := by decide +kernel
  have size := congrArg List.length kinds
  rw [List.length_map] at size
  have shallow := (not_tooDeep_iff "MATCH (match) RETURN match").mpr
    (derive_of_short (by rw [List.size_toArray, size]; decide))
  have readOn : lexicalIssues
      (Document.parse ⟨3000, 3000⟩ "MATCH (match) RETURN match").stream = [] := by
    decide +kernel
  refine List.eq_nil_iff_forall_not_mem.mpr fun issue member => ?_
  rcases reported _ kinds issue member with lexical | gaveUp
  · rw [readOn] at lexical
    cases lexical
  · exact shallow issue member gaveUp

end CypherAssist.Document
