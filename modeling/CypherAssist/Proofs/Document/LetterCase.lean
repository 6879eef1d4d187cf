import CypherAssist.Document.Parse
import CypherAssist.Proofs.Token.LetterCase

/-! Documents in either case. The grammar sees the kinds of tokens only, so texts that are equal up
to the case of letters have the same derivation; their trees are of one shape over the same tokens,
and the same is wrong with them at the same places. Only the text shown in a message keeps its
letters. -/
namespace CypherAssist
open Token Grammar Text

variable {limits : Limits}

/-- Trees of one shape over the same tokens but for the case of letters. -/
inductive Tree.SameButCase : Tree → Tree → Prop where
  | leaf (same : Token.SameButCase one two) : SameButCase (.leaf one) (.leaf two)
  | misfit (same : Token.SameButCase one two) : SameButCase (.misfit one) (.misfit two)
  | node (same : List.Forall₂ SameButCase below beneath) :
      SameButCase (.node rule isPartial below) (.node rule isPartial beneath)

/-- Problems that differ at most in the case of the text they show. -/
inductive Problem.SameButCase : Problem → Problem → Prop where
  | same (problem : Problem) : SameButCase problem problem
  | unexpected (same : SameLetters one.toList two.toList) (expected : List Kind) :
      SameButCase (.unexpected one expected) (.unexpected two expected)

/-- The same problem at the same token but for the case of letters. -/
structure Issue.SameButCase (one two : Issue) : Prop where
  problem : Problem.SameButCase one.problem two.problem
  token : Token.SameButCase one.token two.token

/-- Documents of the same tokens, shape and problems but for the case of letters. -/
structure Document.SameButCase (one two : Document) : Prop where
  stream : Stream.SameButCase one.stream two.stream
  tree : Tree.SameButCase one.tree two.tree
  issues : List.Forall₂ Issue.SameButCase one.issues two.issues

/-! ## Tokens -/

namespace Token

variable {one two : List Token}

/-- The text shown for a token differs in the case of its letters only. -/
theorem SameButCase.text {one two : Token} (same : one.SameButCase two) :
    SameLetters one.text.toList two.text.toList := by
  have empty : one.lexeme = [] ↔ two.lexeme = [] := by
    rw [← List.length_eq_zero_iff, ← List.length_eq_zero_iff, same.letters.length]
  simp only [Token.text, same.kind, empty]
  split
  · rfl
  · simpa using same.letters

/-- What does not depend on the letters of a token is the same all along the lists. -/
theorem map_sameButCase {α : Type} {f : Token → α}
    (told : ∀ {one two : Token}, one.SameButCase two → f one = f two)
    (same : List.Forall₂ SameButCase one two) : one.map f = two.map f := by
  induction same with
  | nil => rfl
  | cons first _ ih => rw [List.map_cons, List.map_cons, told first, ih]

theorem kinds_sameButCase (same : List.Forall₂ SameButCase one two) :
    one.map (·.kind) = two.map (·.kind) :=
  map_sameButCase (·.kind) same

/-- At the same place stands the same token, or none in either list. -/
theorem getElem?_sameButCase (same : List.Forall₂ SameButCase one two) (place : Nat) :
    (∃ first second, one[place]? = some first ∧ two[place]? = some second ∧
      first.SameButCase second) ∨ one[place]? = none ∧ two[place]? = none := by
  induction same generalizing place with
  | nil => exact .inr ⟨rfl, rfl⟩
  | cons first _ ih =>
    cases place with
    | zero => exact .inl ⟨_, _, rfl, rfl, first⟩
    | succ place => exact ih place

variable {one two : Stream}

theorem Stream.SameButCase.toList (same : one.SameButCase two) :
    List.Forall₂ Token.SameButCase one.toList two.toList :=
  List.rel_append same.body (.cons same.last .nil)

/-- Tokens are hidden in both streams or in neither. -/
theorem Stream.SameButCase.visible (same : one.SameButCase two) :
    List.Forall₂ Token.SameButCase one.visible two.visible := by
  refine List.rel_filter ?_ same.body
  intro first second alike
  simp only [Token.isHidden, alike.kind]

theorem Stream.ofText_sameLetters {one two : List Char} (same : SameLetters one two) :
    (Stream.ofText one).SameButCase (Stream.ofText two) :=
  Stream.readFrom_sameLetters same {} 0

end Token

/-! ## Trees -/

namespace Tree

variable {one two : List Token}

mutual

/-- A derivation is spelled out alike over the same tokens. -/
theorem ofDerivation_sameButCase (same : List.Forall₂ Token.SameButCase one two) :
    (derivation : Derivation) → List.Forall₂ SameButCase (ofDerivation one.toArray derivation)
      (ofDerivation two.toArray derivation)
  | .token position => by
    simp only [ofDerivation, List.getElem?_toArray]
    rcases getElem?_sameButCase same position with
      ⟨first, second, here, there, alike⟩ | ⟨here, there⟩
    · rw [here, there]
      exact .cons (.leaf alike) .nil
    · rw [here, there]
      exact .nil
  | .node rule isPartial children => by
    rw [ofDerivation, ofDerivation]
    exact .cons (.node (ofDerivations_sameButCase same children)) .nil

theorem ofDerivations_sameButCase (same : List.Forall₂ Token.SameButCase one two) :
    (derivations : List Derivation) → List.Forall₂ SameButCase
      (ofDerivations one.toArray derivations) (ofDerivations two.toArray derivations)
  | [] => by
    rw [ofDerivations, ofDerivations]
    exact .nil
  | derivation :: rest => by
    rw [ofDerivations, ofDerivations]
    exact List.rel_append (ofDerivation_sameButCase same derivation)
      (ofDerivations_sameButCase same rest)

end

end Tree

namespace Document

variable {one two : Stream}

/-- The parser is given kinds only. -/
theorem derive_congr {one two : Array Token} (same : one.map (·.kind) = two.map (·.kind)) :
    derive limits one = derive limits two := by
  rw [derive, derive, same]

theorem derive_sameButCase {one two : List Token} (same : List.Forall₂ Token.SameButCase one two) :
    derive limits one.toArray = derive limits two.toArray := by
  apply derive_congr
  rw [List.map_toArray, List.map_toArray, kinds_sameButCase same]

theorem deriveBefore_sameButCase {one two : List Token}
    (same : List.Forall₂ Token.SameButCase one two) (count : Nat) :
    deriveBefore limits one.toArray count = deriveBefore limits two.toArray count := by
  rw [deriveBefore, deriveBefore, List.take_toArray, List.take_toArray,
    derive_sameButCase (List.forall₂_take count same)]

/-- The tree built of a derivation is of one shape over the same tokens. -/
theorem assemble_sameButCase (same : one.SameButCase two) (derivation? : Option Derivation)
    (consumed : Nat) :
    Tree.SameButCase (assemble one one.visible.toArray derivation? consumed)
      (assemble two two.visible.toArray derivation? consumed) := by
  have behind : List.Forall₂ Tree.SameButCase
      ((one.visible.drop consumed).map .misfit ++ [.leaf one.last])
      ((two.visible.drop consumed).map .misfit ++ [.leaf two.last]) := by
    refine List.rel_append ?_ (.cons (.leaf same.last) .nil)
    exact List.rel_map (fun _ _ alike => .misfit alike) (List.forall₂_drop consumed same.visible)
  unfold assemble root
  split
  · exact .node (List.rel_append (Tree.ofDerivations_sameButCase same.visible _) behind)
  · exact .node behind

/-- The same construct is left open, and the closing token stands at the same place. -/
theorem lexicalIssues_sameButCase (same : one.SameButCase two) :
    List.Forall₂ Issue.SameButCase (lexicalIssues one) (lexicalIssues two) := by
  rw [lexicalIssues, lexicalIssues, same.unterminated?]
  cases two.unterminated? with
  | none => exact .nil
  | some what => exact .cons ⟨.same _, same.last⟩ .nil

/-- The token that does not fit stands at the same place. -/
theorem offending_sameButCase (same : one.SameButCase two) (consumed : Nat) :
    Token.SameButCase ((one.visible.toArray[consumed]?).getD one.last)
      ((two.visible.toArray[consumed]?).getD two.last) := by
  rw [List.getElem?_toArray, List.getElem?_toArray]
  rcases getElem?_sameButCase same.visible consumed with
    ⟨first, second, here, there, alike⟩ | ⟨here, there⟩
  · rw [here, there]
    exact alike
  · rw [here, there]
    exact same.last

/-- The same is derived, and the problems are at the same places. -/
theorem result_sameButCase (same : one.SameButCase two) :
    (result limits one).derivation? = (result limits two).derivation? ∧
      (result limits one).consumed = (result limits two).consumed ∧
      List.Forall₂ Issue.SameButCase (result limits one).issues (result limits two).issues := by
  have visible := same.visible
  have size := visible.length_eq
  have nothing : one.visible.toArray.isEmpty = two.visible.toArray.isEmpty := by
    simp [Array.isEmpty, size]
  simp only [result, derive_sameButCase visible, List.size_toArray, size, nothing]
  split
  · exact ⟨rfl, rfl, .cons ⟨.same _, same.last⟩ .nil⟩
  · split
    · exact ⟨rfl, rfl, .nil⟩
    · refine ⟨rfl, rfl, ?_⟩
      split
      · exact .nil
      · exact .cons ⟨.same _, same.last⟩ .nil
    · have offending := offending_sameButCase same
      exact ⟨deriveBefore_sameButCase visible _, rfl,
        .cons ⟨.unexpected (offending _).text _, offending _⟩ .nil⟩

/-- Texts that are equal up to the case of letters are parsed alike. -/
theorem parse_sameLetters (limits : Limits) {one two : String}
    (same : SameLetters one.toList two.toList) :
    (parse limits one).SameButCase (parse limits two) := by
  have stream := Stream.ofText_sameLetters same
  obtain ⟨derivation, consumed, issues⟩ := result_sameButCase stream
  refine ⟨stream, ?_, List.rel_append (lexicalIssues_sameButCase stream) issues⟩
  simp only [parse, derivation, consumed]
  exact assemble_sameButCase stream _ _

end Document

end CypherAssist
