import CypherAssist.Token.Stream

/-! What reading a text guarantees of the tokens: only the last one closes the stream, so the
visible tokens are those that are neither hidden nor the last. -/
namespace CypherAssist.Token

theorem wordKind_ne_endOfFile (word : List Char) : Lexeme.wordKind word ≠ .endOfFile := by
  unfold Lexeme.wordKind
  split <;> simp

/-- No lexeme is the end of the file. -/
theorem ne_endOfFile_of_next {chars : List Char} {found : Kind} {length : Nat}
    (starts : Lexeme.next chars = .token found length) : found ≠ .endOfFile := by
  unfold Lexeme.next at starts
  split at starts
  · rename_i complete
    cases starts
    simp only [Lexeme.complete?, Option.orElse_eq_orElse, Option.orElse_eq_or,
      Option.or_eq_some_iff, Option.map_eq_some_iff, Prod.mk.injEq] at complete
    rintro rfl
    simp [wordKind_ne_endOfFile] at complete
  · split at starts
    · cases starts
    · split at starts <;> cases starts <;> simp

namespace Stream

theorem readFrom_ends (cursor : Cursor) (index : Nat) (chars : List Char) :
    (∀ token ∈ (readFrom cursor index chars).body, token.isEnd = false) ∧
    (readFrom cursor index chars).last.isEnd := by
  fun_induction readFrom cursor index chars with
  | case1 | case2 => simp [isEnd]
  | case3 cursor index c rest kind length starts lexeme following ih =>
    refine ⟨fun token member => ?_, ih.2⟩
    rcases List.mem_cons.mp member with rfl | later
    · simpa [isEnd] using ne_endOfFile_of_next starts
    · exact ih.1 token later

/-- Only the last token of a stream closes it. -/
theorem isEnd_of_mem_body {chars : List Char} {token : Token} (member : token ∈ (ofText chars).body)
    :
    token.isEnd = false :=
  (readFrom_ends {} 0 chars).1 token member

theorem isEnd_last (chars : List Char) : (ofText chars).last.isEnd :=
  (readFrom_ends {} 0 chars).2

/-- The grammar sees all tokens that are not hidden, but for the last. -/
theorem visible_ofText (chars : List Char) :
    (ofText chars).visible = (ofText chars).toList.filter fun token => !token.isHidden &&
        !token.isEnd := by
  have closing :
      [(ofText chars).last].filter (fun token => !token.isHidden && !token.isEnd) = [] := by
    simp [isEnd_last]
  rw [visible, toList, List.filter_append, closing, List.append_nil]
  refine List.filter_congr fun token member => ?_
  rw [isEnd_of_mem_body member, Bool.not_false, Bool.and_true]

theorem readFrom_index (cursor : Cursor) (index : Nat) (chars : List Char) :
    (readFrom cursor index chars).body.map (·.index) =
        List.range' index (readFrom cursor index chars).body.length := by
  fun_induction readFrom cursor index chars with
  | case1 | case2 => rfl
  | case3 cursor index c rest kind length starts lexeme following ih =>
    rw [List.map_cons, ih, List.length_cons, List.range'_succ]

/-- A token knows its place in the stream. -/
theorem index_body (chars : List Char) :
    (ofText chars).body.map (·.index) = List.range' 0 (ofText chars).body.length :=
  readFrom_index {} 0 chars

/-- The last token is not hidden. -/
theorem isHidden_last (chars : List Char) : (ofText chars).last.isHidden = false := by
  have closing := isEnd_last chars
  simp only [isEnd, decide_eq_true_eq] at closing
  rw [isHidden, closing]
  rfl

end Stream

end CypherAssist.Token
