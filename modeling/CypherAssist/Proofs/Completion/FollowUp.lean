import CypherAssist.Proofs.Completion.Keywords
import CypherAssist.Proofs.Completion.Progress
import CypherAssist.Proofs.Grammar.Forestalled
import CypherAssist.Proofs.Grammar.Through

/-! Follow-ups hold on every path. A keyword is offered together with what must follow it, as known
from the first path that has come to it. The tokens before the caret tell how far a command has
come, and so what is due behind the keyword on all other paths as well. The word IS is the
exception: a test for null would add to it, but a test for a label comes to it first and adds
nothing. -/
namespace CypherAssist.Completion
open Token Grammar

variable {limits : Limits}

variable {tokens : List Token} {input : List Kind} {admitted : Rule → Prop} {origin place : Nat}
  {kind : Kind}

/-! ## The word IS -/

/-- Wherever an operand ends, it may go on with a test for a label. -/
def Labelled (admitted : Rule → Prop) (input : List Kind) (operand : Rule) : Prop :=
  ∀ origin stop, Spans cypher input (.reference operand) origin stop →
    Meets cypher admitted input (.reference operand) origin stop (.keyword .IS)

theorem labelled_expression2 (plain : ∀ rule, rule ∉ ({} : Config).preferred → admitted rule) :
    Labelled admitted input .expression2 := by
  intro origin stop spans
  obtain ⟨middle, first, others⟩ := spans_cons_iff.mp ((spans_reference_iff rfl).mp spans)
  obtain ⟨_, others, nothing⟩ := spans_cons_iff.mp others
  cases nothing
  have test : Meets cypher admitted input (.reference .labelExpression) stop stop (.keyword .IS) :=
    .reference (plain _ (by decide)) rfl (.head (.choice (by simp) .token))
  have behind : Meets cypher admitted input (.reference .postfixOperator) stop stop
      (.keyword .IS) := .reference (plain _ (by decide)) rfl (.choice (by simp) test)
  exact .reference (plain _ (by decide)) rfl
    (.tail first (.head (meets_repeated_iff.mpr ⟨stop, others, behind⟩)))

theorem labelled_expression3 (plain : ∀ rule, rule ∉ ({} : Config).preferred → admitted rule)
    (inner : Labelled admitted input .expression2) : Labelled admitted input .expression3 := by
  intro origin stop spans
  obtain ⟨middle, signs, others⟩ := spans_cons_iff.mp ((spans_reference_iff rfl).mp spans)
  obtain ⟨_, operand, nothing⟩ := spans_cons_iff.mp others
  cases nothing
  exact .reference (plain _ (by decide)) rfl (.tail signs (.head (inner middle stop operand)))

/-- Operands with operators between them end with an operand. -/
theorem labelled_of_infix {outer inner : Rule} {sign : Element}
    (defined : definition outer =
      .sequence [.reference inner, .repeated (.sequence [sign, .reference inner])])
    (admits : admitted outer) (operand : Labelled admitted input inner) :
    Labelled admitted input outer := by
  intro origin stop spans
  have known := congrArg some defined
  obtain ⟨middle, first, others⟩ := spans_cons_iff.mp ((spans_reference_iff known).mp spans)
  obtain ⟨_, others, nothing⟩ := spans_cons_iff.mp others
  cases nothing
  refine .reference admits known ?_
  rcases (spans_repeated_iff.mp others).cases_tail with rfl | ⟨last, before, pair⟩
  · exact .head (operand origin _ first)
  · obtain ⟨start, signed, pair⟩ := spans_cons_iff.mp pair
    obtain ⟨_, second, nothing⟩ := spans_cons_iff.mp pair
    cases nothing
    exact .tail first (.head (meets_repeated_iff.mpr ⟨last, spans_repeated_iff.mpr before,
      .tail signed (.head (operand start stop second))⟩))

theorem labelled_expression6 (plain : ∀ rule, rule ∉ ({} : Config).preferred → admitted rule) :
    Labelled admitted input .expression6 := by
  have third : Labelled admitted input .expression3 :=
    labelled_expression3 plain (labelled_expression2 plain)
  have fourth : Labelled admitted input .expression4 :=
    labelled_of_infix rfl (plain _ (by decide)) third
  have fifth : Labelled admitted input .expression5 :=
    labelled_of_infix rfl (plain _ (by decide)) fourth
  exact labelled_of_infix rfl (plain _ (by decide)) fifth

/-- The word IS is the first one of a comparison, if it is one of its own words. -/
theorem eq_of_comes_is (comes : Comes cypher input (definition .comparisonExpression6) origin
    (.token (.keyword .IS)) follow place) : place = origin := by
  -- no rule is entered on the way
  have meets : Meets cypher (fun _ => False) input (definition .comparisonExpression6) origin place
      (.keyword .IS) := meets_of_comes comes .token
  have absent {element : Element} {start : Nat}
      (apart : .token (.keyword .IS) ∉ element.subelements) :
      ¬ Meets cypher (fun _ => False) input element start place (.keyword .IS) := fun inside =>
    (token_of_meets inside).elim apart fun ⟨_, _, never, _⟩ => never
  have begins {rest : List Element}
      (apart : .token (.keyword .IS) ∉ (Element.sequence rest).subelements)
      (inside : Meets cypher (fun _ => False) input
        (.sequence (.token (.keyword .IS) :: rest)) origin place (.keyword .IS)) :
      place = origin := by
    rcases meets_cons_iff.mp inside with word | ⟨_, _, behind⟩
    · cases word
      rfl
    · exact absurd behind (absent apart)
  obtain ⟨option, member, inside⟩ := meets_choice_iff.mp meets
  simp only [List.mem_cons, List.not_mem_nil, or_false] at member
  rcases member with rfl | rfl | rfl
  · refine absurd inside (absent ?_)
    simp [Element.seq, Element.alt, Element.subelements, Element.subelementsOfAll]
  · exact begins (by simp [Element.subelements, Element.subelementsOfAll]) inside
  · exact begins (by simp [Element.subelements, Element.subelementsOfAll]) inside

/-- Nothing comes straight behind the word IS. -/
def bareIs (site : Site Unit) : Bool :=
  match site.part with
  | .token (.keyword .IS) => followUp ({} : Config).ignored site.follow = ([], false)
  | _ => true

/-- The word IS of a comparison stands behind an operand that asks for it as well. -/
theorem is_forestalled (tokens : List Token) :
    Forestalled cypher (caretAmong tokens) (.keyword .IS) .expression6 .comparisonExpression6
      .expression7 where
  apart := by decide
  body := rfl
  only := by
    have checked : ∀ rule ∈ Rule.all,
        .comparisonExpression6 ∈ (definition rule).references → rule = .expression7 := by
      decide +kernel
    rintro rule element ⟨rfl⟩ mentioned
    exact checked rule (Rule.mem_all rule) mentioned
  asked origin spans := by
    have plain (rule) (plain : rule ∉ ({} : Config).preferred) : (caretAmong tokens).Admits rule :=
      mt prefers_caretAmong.mp plain
    refine ⟨?_, labelled_expression6 plain origin _ spans⟩
    rw [← Bool.not_eq_true, List.contains_iff_mem]
    exact mem_ignored.mpr ⟨_, rfl⟩
  begins := by
    rintro element origin follow place ⟨rfl⟩ comes
    exact eq_of_comes_is comes
  bare := by
    have checked : ∀ rule ∈ Rule.all, rule ≠ .comparisonExpression6 →
        ∀ site ∈ Scheme.single.sites (definition rule) [] (), bareIs site := by
      decide +kernel
    rintro rule element origin follow place other ⟨rfl⟩ comes
    exact of_decide_eq_true
      (checked rule (Rule.mem_all rule) other _ (Scheme.mem_single_sites comes))

/-! ## Follow-ups -/

/-- A path through a document reads these kinds, a token of this kind with no name open around it,
and then what is left. -/
def GoesOn (before : List Kind) (kind : Kind) (left : List Kind) : Prop :=
  Through cypher (· ∉ ({} : Config).preferred) (.reference Grammar.start) before kind left

theorem sentence_of_goesOn (goes : GoesOn input kind left) :
    Word cypher (.reference Grammar.start) (input ++ kind :: left) :=
  word_of_through goes

/-- Where a path stands in front of a token, every word of what follows it can be read behind it. -/
theorem goesOn_of_stands (clear : ∀ frame ∈ stack, frame.rule ∉ ({} : Config).preferred)
    (stands : Stands cypher input Grammar.start stack (.token kind) follow input.length)
    (word : Word cypher (.sequence follow) ahead) : ∃ rest, GoesOn input kind (ahead ++ rest) := by
  obtain ⟨rest, through⟩ :
      ∃ rest, GoesOn (input.take input.length ++ []) kind ([] ++ ahead ++ rest) :=
    through_of_stands cypher_productive rfl clear stands .token word
  exact ⟨rest, by simpa using through⟩

/-- A path through a token stands in front of it, and reads a word of what follows behind it. -/
theorem stands_of_goesOn (goes : GoesOn input kind left) :
    ∃ stack follow word, (∀ frame ∈ stack, frame.rule ∉ ({} : Config).preferred) ∧
      Stands cypher input Grammar.start stack (.token kind) follow input.length ∧
      Word cypher (.sequence follow) word ∧ word <+: left := by
  obtain ⟨stack, follow, word, clear, stands, derived, reads⟩ :=
    stands_of_through goes .start List.prefix_rfl .empty
  exact ⟨stack, follow, word, clear, by simpa using stands, derived, by simpa using reads⟩

/-- What is known of a keyword that stands in front of these elements. -/
theorem followUp_of_foresees {word : Keyword} {progress : Progress}
    (foreseen : Progress.foresees ⟨.token (.keyword word), follow, progress⟩) (other : word ≠ .IS) :
    followUp ({} : Config).ignored follow = ((progress.due word).map .keyword, false) ∨
      word = .CREATE ∧ ∃ one two, follow =
        [.optional (.sequence [.token (.keyword .OR), .token (.keyword .REPLACE)]),
          .choice [one, two, .reference .createDatabase]] := by
  unfold Progress.foresees at foreseen
  split at foreseen
  · rename_i same
    cases same
    exact absurd rfl other
  · rename_i same follows
    cases same
    exact .inr ⟨rfl, _, _, follows⟩
  · rename_i same _
    cases same
    exact .inl (of_decide_eq_true foreseen)
  · rename_i none _
    exact absurd rfl (none word)

/-- Where a path stands in front of a keyword with no name open, the tokens before it tell what is
due. -/
theorem foresees_of_stands (clear : ∀ frame ∈ stack, frame.rule ∉ ({} : Config).preferred)
    (stands : Stands cypher input Grammar.start stack (.token kind) follow input.length) :
    Progress.foresees ⟨.token kind, follow, Progress.scheme.after .begun input⟩ := by
  obtain ⟨rule, body, entered, ⟨rfl⟩, plain, among, site⟩ :=
    Scheme.exists_site_of_stands Progress.scheme_closed Progress.guards
      (List.mem_singleton_self Progress.begun) clear stands
  rw [List.take_length] at site
  exact (Progress.sites_checked plain among site).1

/-- Behind CREATE at the beginning of a command, OR REPLACE may stand or be left out. -/
theorem followUp_create {one two : Element} (same : follow =
      [.optional (.sequence [.token (.keyword .OR), .token (.keyword .REPLACE)]),
        .choice [one, two, .reference .createDatabase]]) :
    followUp ({} : Config).ignored follow = ([.keyword .OR, .keyword .REPLACE], true) ∧
      Word cypher (.sequence follow) [.keyword .DATABASE, .plainName] := by
  subst same
  refine ⟨rfl, ?_⟩
  have database : Word cypher (.reference .createDatabase) [.keyword .DATABASE, .plainName] := by
    decide +kernel
  exact .sequence .skipped (.sequence (.choice (by simp) database) .empty)

section
variable {word : Keyword} (clear : ∀ frame ∈ stack, frame.rule ∉ ({} : Config).preferred)
  (stands : Stands cypher input Grammar.start stack (.token (.keyword word)) follow input.length)
include clear stands

/-- Two paths to a keyword agree on what must follow it. -/
theorem followUp_prefix_of_goesOn (other : word ≠ .IS)
    (mandatory : (followUp ({} : Config).ignored follow).2 = false)
    (goes : GoesOn input (.keyword word) left) :
    (followUp ({} : Config).ignored follow).1 <+: left := by
  rcases followUp_of_foresees (foresees_of_stands clear stands) other with due | ⟨rfl, _, _, rfl⟩
  · rw [due]
    obtain ⟨elsewhere, behind, words, plain, also, derived, reads⟩ := stands_of_goesOn goes
    rcases followUp_of_foresees (foresees_of_stands plain also) other with same | ⟨rfl, _⟩
    · have begins := followUp_prefix (congrArg Prod.snd same) derived
      rw [same] at begins
      exact begins.trans reads
    · have nothing : (Progress.scheme.after .begun input).due .CREATE = [] := by
        cases Progress.scheme.after .begun input <;> rfl
      rw [nothing]
      exact List.nil_prefix
  · rw [(followUp_create rfl).1] at mandatory
    cases mandatory

/-- A path to a keyword may go on without what is optional. -/
theorem exists_goesOn_without (other : word ≠ .IS)
    (optional : (followUp ({} : Config).ignored follow).2 = true) :
    ∃ left, GoesOn input (.keyword word) left ∧
      ¬ (followUp ({} : Config).ignored follow).1 <+: left := by
  rcases followUp_of_foresees (foresees_of_stands clear stands) other with due | ⟨rfl, _, _, rfl⟩
  · rw [due] at optional
    cases optional
  · obtain ⟨optional, word⟩ := followUp_create rfl
    obtain ⟨rest, goes⟩ := goesOn_of_stands clear stands word
    refine ⟨_, goes, ?_⟩
    rw [optional]
    simp

end

/-- The kinds of the visible tokens before the one under the caret. -/
def kindsUntil (index : Nat) (stream : List Token) : List Kind :=
  (tokensUntil index stream).dropLast.map (·.kind)

variable {stream : List Token} {index depth : Nat} {candidates : Candidates}
  {candidate : TokenCandidate}

/-- A candidate is a keyword in front of which a path stands with no name open, and it is reported
with what follows there. -/
theorem stands_of_candidate
    (ran : collect cypher Grammar.start stream index ({} : Config).preferred ({} : Config).ignored
      depth = .ok candidates) (member : candidate ∈ candidates.tokens) :
    ∃ word stack follow, candidate = ⟨.keyword word, (followUp ({} : Config).ignored follow).1,
        (followUp ({} : Config).ignored follow).2⟩ ∧
      (∀ frame ∈ stack, frame.rule ∉ ({} : Config).preferred) ∧
      Stands cypher (kindsUntil index stream) Grammar.start stack (.token (.keyword word)) follow
        (kindsUntil index stream).length := by
  obtain ⟨wanted, stack, follow, outside, stands, follows⟩ :=
    (collect_backed ran).tokens candidate member
  rw [← Caret.length_before, Caret.before_eq] at stands
  obtain ⟨kind, ahead, optional⟩ := candidate
  obtain ⟨word, rfl⟩ := mem_ignored.mp wanted
  obtain ⟨rfl, rfl⟩ : ahead = (followUp ({} : Config).ignored follow).1 ∧
      optional = (followUp ({} : Config).ignored follow).2 := Prod.ext_iff.mp follows
  exact ⟨word, stack, follow, rfl,
    fun frame opened => mt prefers_caretAmong.mpr (outside frame opened), stands⟩

/-- A follow-up that is not optional is read behind the keyword by every path that reads it outside
of names. With an optional one there is a sentence that goes on with it and one that does not. -/
theorem followUp_on_every_path
    (ran : collect cypher Grammar.start stream index ({} : Config).preferred ({} : Config).ignored
      depth = .ok candidates) (member : candidate ∈ candidates.tokens) :
    (∃ left, GoesOn (kindsUntil index stream) candidate.kind (candidate.followUp ++ left)) ∧
    (candidate.isOptional = false → ∀ left,
      GoesOn (kindsUntil index stream) candidate.kind left → candidate.followUp <+: left) ∧
    (candidate.isOptional = true →
      (∃ left, Word cypher (.reference Grammar.start)
        (kindsUntil index stream ++ candidate.kind :: (candidate.followUp ++ left))) ∧
      ∃ left, ¬ candidate.followUp <+: left ∧ Word cypher (.reference Grammar.start)
        (kindsUntil index stream ++ candidate.kind :: left)) := by
  have bare : candidate.kind = .keyword .IS → candidate.Bare :=
    collect_bare cypher_leftRecursionFree (cypher_discreet _) (is_forestalled _) (by decide) ran
      candidate member
  obtain ⟨word, stack, follow, rfl, clear, stands⟩ := stands_of_candidate ran member
  have fruitful := (fruitful_of_stands cypher_productive rfl stands).2
  obtain ⟨⟨rest, possible⟩, -⟩ := word_of_followUp ({} : Config).ignored fruitful
  obtain ⟨left, goes⟩ := goesOn_of_stands clear stands possible
  rw [List.append_assoc] at goes
  refine ⟨⟨rest ++ left, goes⟩, fun mandatory left goes => ?_, fun optional =>
    ⟨⟨rest ++ left, sentence_of_goesOn goes⟩, ?_⟩⟩
  · by_cases same : word = .IS
    · rw [(bare (congrArg _ same)).1]
      exact List.nil_prefix
    · exact followUp_prefix_of_goesOn clear stands same mandatory goes
  · have other : word ≠ .IS := fun same => by
      cases optional.symm.trans (bare (congrArg _ same)).2
    obtain ⟨left, goes, without⟩ := exists_goesOn_without clear stands other optional
    exact ⟨left, without, sentence_of_goesOn goes⟩

/-- A path in front of the word FOR, behind the name of an alias to be dropped. -/
theorem for_awaited : Awaits cypher (· ∉ ({} : Config).preferred) (.reference Grammar.start)
    [.keyword .DROP, .keyword .ALIAS, .plainName] (.keyword .FOR) := by
  have continues (rule : Rule) (seen : List Kind) (plain : rule ∉ ({} : Config).preferred)
      (inside : Awaits cypher (· ∉ ({} : Config).preferred) (definition rule) seen
        (.keyword .FOR)) :
      Awaits cypher (· ∉ ({} : Config).preferred) (.reference rule) seen (.keyword .FOR) :=
    .reference plain rfl inside
  have name : Word cypher (.reference .symbolicAliasName) [.plainName] := by decide +kernel
  have ofAlias := continues .dropAlias [.keyword .ALIAS, .plainName] (by decide)
    (.tail .token (.tail name (.tail .skipped (.head .token))))
  have drop := continues .dropCommand [.keyword .DROP, .keyword .ALIAS, .plainName] (by decide)
    (.tail .token (.head (.choice (by simp) ofAlias)))
  have command := continues .command _ (by decide) (.choice (by simp) drop)
  have statement := continues .statement _ (by decide) (.choice (by simp) command)
  exact continues .statements _ (by decide) (.head statement)

/-- Behind the name of an alias to be dropped, the word FOR is offered with DATABASE. -/
theorem database_due_behind_for : ∃ candidates,
    candidatesOf ⟨3000, 3000⟩ (Stream.ofText "DROP ALIAS x ".toList) = .ok candidates ∧
      ⟨.keyword .FOR, [.keyword .DATABASE], false⟩ ∈ candidates.tokens ∧
      ∀ left, GoesOn [.keyword .DROP, .keyword .ALIAS, .plainName] (.keyword .FOR) left →
        [.keyword .DATABASE] <+: left := by
  have before : kindsBefore (Stream.ofText "DROP ALIAS x ".toList) =
      [.keyword .DROP, .keyword .ALIAS, .plainName] := by decide +kernel
  have here : kindsUntil (caretIndex (Stream.ofText "DROP ALIAS x ".toList))
      (Stream.ofText "DROP ALIAS x ".toList).toList =
        [.keyword .DROP, .keyword .ALIAS, .plainName] := by
    rw [kindsUntil, kinds_tokensUntil, before]
  have awaited : Awaited (Stream.ofText "DROP ALIAS x ".toList) .FOR := by
    rw [Awaited, before]
    exact for_awaited
  have exact := candidatesOf_exact ⟨3000, 3000⟩ "DROP ALIAS x ".toList
  cases ran : candidatesOf ⟨3000, 3000⟩ (Stream.ofText "DROP ALIAS x ".toList) with
  | error obstacle =>
    simp only [ran, before] at exact
    exact absurd exact.2 (by decide)
  | ok candidates =>
    simp only [ran] at exact
    obtain ⟨candidate, member, same⟩ := (exact (.keyword .FOR)).mpr ⟨.FOR, rfl, awaited⟩
    have holds := followUp_on_every_path ran member
    obtain ⟨word, stack, follow, rfl, clear, stands⟩ := stands_of_candidate ran member
    cases same
    rw [here] at holds stands
    rcases followUp_of_foresees (foresees_of_stands clear stands) (by decide) with due |
      ⟨impossible, -⟩
    · have database : (Progress.scheme.after .begun
          [.keyword .DROP, .keyword .ALIAS, .plainName]).due .FOR = [.DATABASE] := by decide
      rw [due, database] at holds member
      exact ⟨candidates, rfl, member, holds.2.1 rfl⟩
    · cases impossible

end CypherAssist.Completion
