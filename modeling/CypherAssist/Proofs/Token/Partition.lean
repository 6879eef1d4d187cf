import CypherAssist.Document.Parse
import CypherAssist.Proofs.Token.Extent
import Mathlib.Data.List.Chain

/-! Tokens cut a text into pieces, none of them empty, that stand side by side in the order of their
numbers. What is not read, if anything, is left to the token that closes the stream. -/
namespace CypherAssist.Token

namespace Stream

/-- The tokens stand side by side. -/
theorem adjoining_readFrom (cursor : Cursor) (index : Nat) (chars : List Char) :
    (readFrom cursor index chars).toList.head?.map (·.start) = some cursor.offset ∧
      (readFrom cursor index chars).toList.IsChain fun one other =>
        (other.start : Int) = one.stop + 1 := by
  induction cursor, index, chars using readFrom_induction with
  | nothing | opened => exact ⟨rfl, List.isChain_singleton _⟩
  | token cursor index kind lexeme rest some starts ih =>
    refine ⟨rfl, ih.2.cons fun next first => ?_⟩
    have start : next.start = cursor.offset + lexeme.length := by
      have head := ih.1
      rwa [Option.mem_def.mp first, Option.map_some, Option.some.injEq, Cursor.offset_after]
        at head
    simp only [Token.stop, Token.start] at start ⊢
    omega

end Stream

/-! ## Partitions -/

/-- The characters of a text between two offsets, both included. -/
def slice (text : List Char) (start : Nat) (stop : Int) : List Char :=
  (text.drop start).take (stop + 1 - start).toNat

/-- The tokens of a stream cut the text into pieces that are not empty, side by side and in order.
A text that is read to its end leaves no problem; otherwise what is left is one. -/
structure Partitions (text : List Char) (stream : Stream) : Prop where
  finite : stream.toList.length ≤ text.length + 1
  closed : stream.toList.getLast? = some stream.last ∧
    stream.toList.filter (·.kind = .endOfFile) = [stream.last]
  numbered : stream.toList.map (·.index) = List.range stream.toList.length
  reads : ∀ token ∈ stream.body,
    Lexeme.next (text.drop token.start) = .token token.kind token.lexeme.length
  pieces : ∀ token ∈ stream.body,
    token.text ≠ "" ∧ token.text = String.ofList (slice text token.start token.stop)
  begins : stream.toList.head?.map (·.start) = some 0
  adjoining : stream.toList.IsChain fun one other => (other.start : Int) = one.stop + 1
  remainder :
    (stream.last.text = endText ∧ stream.last.start = text.length ∧
      Document.lexicalIssues stream = []) ∨
    (stream.last.text = String.ofList (text.drop stream.last.start) ∧
      text.drop stream.last.start ≠ [] ∧ stream.last.text ≠ endText ∧
      ∃ what, Document.lexicalIssues stream = [⟨.unterminated what, stream.last⟩])
  hidden : ∀ token ∈ stream.toList,
    token.isHidden ↔ token.kind ∈ [.blank, .lineComment, .blockComment]

namespace Stream

variable {chars : List Char} {token : Token}

/-- The text of a token is what the text has at its place. -/
theorem text_of_mem (member : token ∈ (ofText chars).body) :
    token.text ≠ "" ∧ token.text = String.ofList (slice chars token.start token.stop) := by
  obtain ⟨some, before, behind, same, place, -⟩ := reads_of_mem member
  have start : token.start = before.length := by simp [Token.start, place]
  have inner : token.kind ≠ .endOfFile := by simpa [isEnd] using isEnd_of_mem_body member
  have shown : token.text = String.ofList token.lexeme := if_neg fun both => inner both.1
  have count : (token.stop + 1 - token.start).toNat = token.lexeme.length := by
    simp only [Token.stop]
    omega
  refine ⟨?_, ?_⟩
  · rw [shown]
    simpa using some
  · rw [shown, slice, count, start, same, List.drop_left, List.take_left]

/-- The last token starts where the others end. -/
theorem start_last (chars : List Char) :
    (ofText chars).last.start = ((ofText chars).body.flatMap (·.lexeme)).length := by
  simp [Token.start, ofText, (last_readFrom_place {} 0 chars).2]

/-- What the last token covers is what is left behind the others. -/
theorem drop_last (chars : List Char) :
    chars.drop (ofText chars).last.start = (ofText chars).last.lexeme := by
  have all := lexemes_readFrom {} 0 chars
  have behind := congrArg (List.drop ((ofText chars).body.flatMap (·.lexeme)).length) all
  rwa [← ofText, List.drop_left, ← start_last, eq_comm] at behind

theorem remainder_ofText (chars : List Char) :
    ((ofText chars).last.text = endText ∧ (ofText chars).last.start = chars.length ∧
      Document.lexicalIssues (ofText chars) = []) ∨
    ((ofText chars).last.text = String.ofList (chars.drop (ofText chars).last.start) ∧
      chars.drop (ofText chars).last.start ≠ [] ∧ (ofText chars).last.text ≠ endText ∧
      ∃ what, Document.lexicalIssues (ofText chars) = [⟨.unterminated what, (ofText chars).last⟩])
    := by
  have left := drop_last chars
  cases opened : (ofText chars).unterminated? with
  | none =>
    have nothing := (unterminated?_readFrom {} 0 chars).mp opened
    rw [← ofText] at nothing
    have whole := (isWhole_iff chars).mpr nothing
    have start : (ofText chars).last.start = chars.length := by
      rw [start_last, (unterminated?_eq_none_iff chars).mp opened]
    exact .inl ⟨by simpa [isWhole] using whole, start, by simp [Document.lexicalIssues, opened]⟩
  | some what =>
    have some : (ofText chars).last.lexeme ≠ [] := by
      intro nothing
      rw [ofText, (unterminated?_readFrom {} 0 chars).mpr nothing] at opened
      cases opened
    have part : ¬ (ofText chars).isWhole := fun whole => some ((isWhole_iff chars).mp whole)
    refine .inr ⟨?_, left ▸ some, by simpa [isWhole] using part, what, by
      simp [Document.lexicalIssues, opened]⟩
    rw [left]
    exact if_neg fun both => some both.2

/-- The token stream is a lossless partition of the text. -/
theorem ofText_partitions (chars : List Char) : Partitions chars (ofText chars) where
  finite := by
    rw [toList, List.length_append]
    exact Nat.succ_le_succ (length_body_le {} 0 chars)
  closed := by
    have closing := isEnd_last chars
    simp only [isEnd, decide_eq_true_eq] at closing
    have inner : (ofText chars).body.filter (·.kind = .endOfFile) = [] :=
      List.filter_eq_nil_iff.mpr fun token member => by
        simpa [isEnd] using isEnd_of_mem_body member
    exact ⟨by simp [toList], by simp [toList, inner, closing]⟩
  numbered := by
    rw [toList, List.map_append, index_body, List.map_singleton, List.length_append,
      List.length_singleton, List.range_succ, List.range_eq_range', ofText,
      (last_readFrom_place {} 0 chars).1, Nat.zero_add]
  reads token member := by
    obtain ⟨-, before, behind, same, place, found⟩ := reads_of_mem member
    have start : token.start = before.length := by simp [Token.start, place]
    rw [start, same, List.drop_left, found]
  pieces token member := text_of_mem member
  begins := (adjoining_readFrom {} 0 chars).1
  adjoining := (adjoining_readFrom {} 0 chars).2
  remainder := remainder_ofText chars
  hidden token _ := by
    rw [Token.isHidden]
    cases token.kind <;> simp [Kind.isHidden]

end Stream

end CypherAssist.Token
