import CypherAssist.Proofs.Grammar.Memory
import CypherAssist.Proofs.Grammar.Shape

/-! The parser accepts exactly the language of its grammar. A rule parsed from some position ends
where a word of the rule ends, and breaks off where a derivation has read the whole text and asks
for one more token. It gives up only for want of depth, and some depth always suffices. -/
namespace CypherAssist.Grammar
open Token Outcomes Relation

/-- The outcomes of a rule at a position of a text are what the language of the rule says. -/
structure Exact (grammar : Grammar) (input : List Kind) (rule : Rule) (position : Nat)
    (found : Outcomes Derivation) : Prop where
  ends : ∀ stop, found.reaches (.upTo stop) ↔ position ≤ stop ∧ stop ≤ input.length ∧
    Word grammar (.reference rule) ((input.drop position).take (stop - position))
  unfinished : found.reaches .cut ↔ ∃ kind,
    Awaits grammar anyRule (.reference rule) (input.drop position) kind

variable {grammar : Grammar} {kinds : Array Kind} {input : List Kind}

theorem reading_exact (free : LeftRecursionFree grammar) (inside : position ≤ input.length) :
    Exact grammar input rule position (reading grammar input rule position) := by
  refine ⟨fun stop => ?_, ?_⟩
  · rw [reading_reaches_iff free, spans_iff inside]
  · rw [reading_cut_iff free]
    have whole : (input.drop position).take (input.length - position) = input.drop position := by
      rw [← List.length_drop, List.take_length]
    constructor
    · rintro ⟨place, kind, meets, ended⟩
      obtain ⟨_, within, awaits⟩ := (meets_iff inside).mp meets
      have atEnd : place = input.length :=
        Nat.le_antisymm within (List.getElem?_eq_none_iff.mp ended)
      rw [atEnd, whole] at awaits
      exact ⟨kind, awaits⟩
    · rintro ⟨kind, awaits⟩
      refine ⟨input.length, kind, (meets_iff inside).mpr ⟨inside, Nat.le_refl _, ?_⟩, by simp⟩
      rwa [whole]

/-- A new parser finds what the language of the rule says, to whatever depth it may go. -/
theorem parseFrom_exact (free : LeftRecursionFree grammar) (inside : position ≤ kinds.size)
    (ran : parseFrom grammar kinds depth rule position = .ok (found, state)) :
    Exact grammar kinds.toList rule position found := by
  rw [(performs_of_parsed free ran).1]
  exact reading_exact free (by simpa using inside)

theorem defined_of_mentions (closed : Closed grammar) (defined : (grammar rule).isSome)
    (mentioned : ReflTransGen (Mentions grammar) rule target) : (grammar target).isSome := by
  cases mentioned with
  | refl => exact defined
  | tail _ last => exact closed _ _ last

/-- Where all rules mentioned are defined, only want of depth can hinder a rule. -/
theorem tooDeep_of_excuse (closed : Closed grammar) (defined : (grammar rule).isSome)
    (excuse : Excuse grammar size depth rule position obstacle) :
    obstacle = .tooDeep ∧ depth ≤ burden grammar size rule position := by
  cases excuse with
  | deep short => exact ⟨rfl, short⟩
  | undefined mentioned absent =>
    have present := defined_of_mentions closed defined mentioned
    rw [absent] at present
    cases present

/-- With enough depth a new parser gets through wherever all rules mentioned are defined. -/
theorem parseFrom_succeeds (free : LeftRecursionFree grammar) (closed : Closed grammar)
    (defined : (grammar rule).isSome) (deep : fullDepth kinds.size ≤ depth) (position : Nat) :
    ∃ found state, parseFrom grammar kinds depth rule position = .ok (found, state) := by
  have performs := parseFrom_performs free kinds depth rule position
  cases ran : parseFrom grammar kinds depth rule position with
  | ok outcome => exact ⟨outcome.1, outcome.2, rfl⟩
  | error obstacle =>
    rw [ran] at performs
    have short := (tooDeep_of_excuse closed defined performs).2
    have bound := burden_lt_fullDepth free kinds.size rule position
    omega

/-- In Cypher a derivation asks for another token exactly where some tokens more make a word. -/
theorem cypher_awaits_iff :
    (∃ kind, Awaits cypher anyRule (.reference rule) seen kind) ↔
      ∃ more, more ≠ [] ∧ Word cypher (.reference rule) (seen ++ more) := by
  constructor
  · rintro ⟨kind, awaits⟩
    obtain ⟨more, word⟩ := (viable_append_iff cypher_productive).mpr awaits
    exact ⟨kind :: more, by simp, by simpa using word⟩
  · rintro ⟨more, some, word⟩
    obtain ⟨kind, rest, rfl⟩ := List.exists_cons_of_ne_nil some
    exact ⟨kind, awaits_of_word word rfl⟩

/-! ## Deciding the language -/

theorem word_iff_reading (free : LeftRecursionFree grammar) :
    Word grammar (.reference rule) input ↔
      (reading grammar input rule 0).reaches (.upTo input.length) := by
  rw [(reading_exact free (Nat.zero_le _)).ends, List.drop_zero, Nat.sub_zero, List.take_length]
  simp

/-- Tokens begin a word of a rule exactly where a reading ends or breaks off behind them. -/
theorem viable_iff_reading :
    Viable cypher rule input ↔
      (reading cypher input rule 0).reaches (.upTo input.length) ∨
        (reading cypher input rule 0).reaches .cut := by
  rw [← word_iff_reading cypher_leftRecursionFree,
    (reading_exact cypher_leftRecursionFree (Nat.zero_le _)).unfinished,
    cypher_awaits_iff, List.drop_zero]
  constructor
  · rintro ⟨more, word⟩
    cases more with
    | nil => exact .inl (by rwa [List.append_nil] at word)
    | cons kind rest => exact .inr ⟨_, by simp, word⟩
  · rintro (word | ⟨more, -, word⟩)
    · exact ⟨[], by rwa [List.append_nil]⟩
    · exact ⟨more, word⟩

instance : Decidable (Word cypher (.reference rule) input) :=
  decidable_of_iff _ (word_iff_reading cypher_leftRecursionFree).symm

instance : Decidable (Viable cypher rule input) :=
  decidable_of_iff _ viable_iff_reading.symm

/-! ## Acceptance -/

/-- The parser of a grammar without left recursion accepts exactly the grammar: from every position
of every text it ends a rule where a word of the rule ends, and breaks it off where a derivation is
open at the end of the text. Cypher is such a grammar, and what is open there can be completed. -/
theorem parser_accepts_grammar :
    (∀ (grammar : Grammar) (kinds : Array Kind) (rule : Rule) (position : Nat),
      LeftRecursionFree grammar → position ≤ kinds.size →
        (∀ depth found state, parseFrom grammar kinds depth rule position = .ok (found, state) →
          Exact grammar kinds.toList rule position found) ∧
        (Closed grammar → (grammar rule).isSome → ∀ depth, fullDepth kinds.size ≤ depth →
          ∃ found state, parseFrom grammar kinds depth rule position = .ok (found, state))) ∧
    LeftRecursionFree cypher ∧ Closed cypher ∧
    ∀ rule seen, (∃ kind, Awaits cypher anyRule (.reference rule) seen kind) ↔
      ∃ more, more ≠ [] ∧ Word cypher (.reference rule) (seen ++ more) := by
  refine ⟨fun grammar kinds rule position free inside => ⟨?_, ?_⟩, cypher_leftRecursionFree,
    cypher_closed,
    fun rule seen => cypher_awaits_iff⟩
  · exact fun depth found state ran => parseFrom_exact free inside ran
  · exact fun closed defined depth deep => parseFrom_succeeds free closed defined deep position

/-- The two tokens of a clause that returns a name make a document, and one that can go on. -/
theorem return_name_accepted :
    ∃ found state,
      parseFrom cypher #[.keyword .RETURN, .plainName] (fullDepth 2) .statements 0 =
        .ok (found, state) ∧
        found.reaches (.upTo 2) ∧ found.reaches .cut := by
  obtain ⟨exact, succeeds⟩ :=
    parser_accepts_grammar.1 cypher #[.keyword .RETURN, .plainName] .statements 0
    cypher_leftRecursionFree (by decide)
  obtain ⟨found, state, ran⟩ := succeeds cypher_closed rfl (fullDepth 2) (Nat.le_refl _)
  have found_exact := exact _ _ _ ran
  have word : Word cypher (.reference start) [.keyword .RETURN, .plainName] := by decide +kernel
  exact ⟨found, state, ran, (found_exact.ends 2).mpr ⟨by decide, by decide, word⟩,
    found_exact.unfinished.mpr (awaits_of_document word)⟩

end CypherAssist.Grammar
