import CypherAssist.Completion.Resolve
import CypherAssist.Proofs.Document.LetterCase
import CypherAssist.Proofs.Grammar.Twins

/-! Completion in either case. The walk to the caret and what is made of its candidates look at the
kinds and the numbers of tokens only, so texts that are equal up to the case of letters are
completed alike. -/
namespace CypherAssist.Completion
open Token Grammar Schema Text

variable {limits : Limits}

variable {one two : List Token}

/-- The tokens up to the caret are the same but for the case of letters. -/
theorem tokensUntil_sameButCase (same : List.Forall₂ Token.SameButCase one two) (index : Nat) :
    List.Forall₂ Token.SameButCase (tokensUntil index one) (tokensUntil index two) := by
  induction same with
  | nil => exact .nil
  | cons first others ih =>
    rename_i token other _ _
    have hidden : token.isHidden = other.isHidden := congrArg Kind.isHidden first.kind
    have ends : token.isEnd = other.isEnd := by rw [Token.isEnd, Token.isEnd, first.kind]
    simp only [tokensUntil, hidden, ends, first.index]
    by_cases passed : other.isHidden
    · simpa only [if_pos passed] using ih
    · simp only [if_neg passed]
      by_cases reached : index ≤ other.index || other.isEnd
      · simpa only [if_pos reached] using .cons first .nil
      · simpa only [if_neg reached] using .cons first ih

/-- The caret stands behind tokens of the same kinds. -/
theorem twins_sameButCase (same : List.Forall₂ Token.SameButCase one two) (index : Nat)
    (preferred : List Rule) (ignored : List Kind) :
    (Caret.mk (tokensUntil index one).toArray preferred ignored).Twins
      (Caret.mk (tokensUntil index two).toArray preferred ignored) := by
  have among := tokensUntil_sameButCase same index
  refine ⟨rfl, rfl, ?_, ?_⟩
  · exact map_sameButCase (·.index) among
  · simp only [Caret.before, Caret.position, List.size_toArray, among.length_eq]
    exact kinds_sameButCase (List.forall₂_take _ among)

/-- A blank follows in both lists or in neither. -/
theorem blankFollows_sameButCase (same : List.Forall₂ Token.SameButCase one two) (index : Int) :
    blankFollows one index = blankFollows two index := by
  rw [blankFollows, blankFollows, ← List.getElem?_map, ← List.getElem?_map, kinds_sameButCase same]

/-- What rule candidates offer depends on the kinds of tokens. -/
theorem ruleItems_sameButCase (same : List.Forall₂ Token.SameButCase one two)
    (candidates : List RuleCandidate) (catalog : Catalog) :
    ruleItems candidates catalog one = ruleItems candidates catalog two := by
  unfold ruleItems classify classifyAlias
  simp only [blankFollows_sameButCase same]

/-- Documents that are the same but for the case of letters are completed alike. -/
theorem fromGrammar_sameButCase {one two : Document} (same : one.SameButCase two)
    (catalog : Catalog) (config : Config) :
    fromGrammar limits one catalog config = fromGrammar limits two catalog config := by
  have tokens := same.stream.toList
  have caret : caretIndex one.stream = caretIndex two.stream :=
    congrArg (· - 1) same.stream.body.length_eq
  have candidates : candidatesAt limits one (caretIndex one.stream) config =
      candidatesAt limits two (caretIndex two.stream) config := by
    rw [candidatesAt, candidatesAt, caret, collect_twins (twins_sameButCase tokens _ _ _)]
  simp only [fromGrammar, candidates, ruleItems_sameButCase tokens]

/-- The case of letters never changes the structure. Two texts that are equal up to the case of
ASCII letters have tokens of the same kinds at the same places, trees of one shape over them with
the same rules left open, and issues at the same tokens; and the grammar offers the same at their
ends, whatever the schema and the tables that completion reads. -/
theorem letterCase_keeps_structure {one two : String} (same : SameLetters one.toList two.toList) :
    List.Forall₂ (fun token other => token.kind = other.kind ∧ token.start = other.start ∧
        token.stop = other.stop ∧ token.line = other.line ∧ token.column = other.column ∧
        token.isHidden = other.isHidden)
      (Stream.ofText one.toList).toList (Stream.ofText two.toList).toList ∧
    Tree.SameButCase (Document.parse limits one).tree (Document.parse limits two).tree ∧
    List.Forall₂ Issue.SameButCase (Document.parse limits one).issues
      (Document.parse limits two).issues ∧
    ∀ catalog config, fromGrammar limits (Document.parse limits one) catalog config =
      fromGrammar limits (Document.parse limits two) catalog config := by
  have parsed := Document.parse_sameLetters limits same
  refine ⟨?_, parsed.tree, parsed.issues, fromGrammar_sameButCase parsed⟩
  apply (Stream.ofText_sameLetters same).toList.imp
  intro token other alike
  have stop : token.stop = other.stop := by
    rw [Token.stop, Token.stop, Token.start, Token.start, alike.place, alike.letters.length]
  have hidden : token.isHidden = other.isHidden := congrArg Kind.isHidden alike.kind
  exact ⟨alike.kind, congrArg (·.offset) alike.place, stop, congrArg (·.line) alike.place,
    congrArg (·.column) alike.place, hidden⟩

/-- Keywords, names and the letter of an exponent may be written either way. -/
theorem structure_of_small_letters :
    SameLetters "MATCH (N) RETURN 1E5 AS".toList "match (n) Return 1e5 as".toList ∧
      Tree.SameButCase (Document.parse ⟨3000, 3000⟩ "MATCH (N) RETURN 1E5 AS").tree
        (Document.parse ⟨3000, 3000⟩ "match (n) Return 1e5 as").tree ∧
      fromGrammar ⟨3000, 3000⟩ (Document.parse ⟨3000, 3000⟩ "MATCH (N) RETURN 1E5 AS") {} =
        fromGrammar ⟨3000, 3000⟩ (Document.parse ⟨3000, 3000⟩ "match (n) Return 1e5 as") {} := by
  have same : SameLetters "MATCH (N) RETURN 1E5 AS".toList "match (n) Return 1e5 as".toList := by
    decide
  obtain ⟨-, tree, -, completed⟩ := letterCase_keeps_structure same
  exact ⟨same, tree, completed {} {}⟩

end CypherAssist.Completion
