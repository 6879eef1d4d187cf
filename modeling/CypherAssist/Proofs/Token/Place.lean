import CypherAssist.Proofs.Token.Stream

/-! Tokens and the text. The lexemes of a stream put together are the text, and each token stands
where the text before it ends; the text is read to its end unless it opens what it never closes. -/
namespace CypherAssist.Token.Stream

variable {cursor : Cursor} {index : Nat} {chars : List Char} {token : Token}

/-- The lexemes of all tokens are the text. -/
theorem lexemes_readFrom (cursor : Cursor) (index : Nat) (chars : List Char) :
    (readFrom cursor index chars).body.flatMap (·.lexeme) ++
      (readFrom cursor index chars).last.lexeme = chars := by
  fun_induction readFrom cursor index chars with
  | case1 | case2 => rfl
  | case3 cursor index c rest kind length starts lexeme following ih =>
    rw [List.flatMap_cons, List.append_assoc]
    simp only [lexeme]
    rw [ih, List.cons_append, List.take_append_drop]

/-- A token stands where the text before it ends. -/
theorem place_of_mem (member : token ∈ (readFrom cursor index chars).toList) :
    ∃ before behind, chars = before ++ (token.lexeme ++ behind) ∧
      token.place = cursor.after before := by
  fun_induction readFrom cursor index chars with
  | case1 =>
    cases List.mem_singleton.mp member
    exact ⟨[], [], rfl, rfl⟩
  | case2 cursor index c rest =>
    cases List.mem_singleton.mp member
    exact ⟨[], [], by simp, rfl⟩
  | case3 cursor index c rest kind length starts lexeme following ih =>
    have split : c :: rest = lexeme ++ rest.drop (length - 1) := by
      rw [List.cons_append, List.take_append_drop]
    rcases List.mem_cons.mp member with rfl | later
    · exact ⟨[], _, split, rfl⟩
    · obtain ⟨before, behind, same, place⟩ := ih later
      refine ⟨lexeme ++ before, behind, ?_, ?_⟩
      · rw [split, same, List.append_assoc]
      · rw [place, Cursor.after_append]

/-- Nothing is left over but what an opening mark starts. -/
theorem last_readFrom (cursor : Cursor) (index : Nat) (chars : List Char) :
    (readFrom cursor index chars).last.lexeme = [] ∨
      ∃ what, Lexeme.opened? (readFrom cursor index chars).last.lexeme = some what := by
  fun_induction readFrom cursor index chars with
  | case1 => exact .inl rfl
  | case2 cursor index c rest what starts =>
    refine .inr ⟨what, ?_⟩
    unfold Lexeme.next at starts
    split at starts
    · cases starts
    · split at starts
      · rename_i opened
        cases starts
        exact opened
      · split at starts <;> cases starts
  | case3 _ _ _ _ _ _ _ _ _ ih => exact ih

/-- The text shown for a finished file is not that of a construct left open. -/
theorem isWhole_iff (chars : List Char) :
    (ofText chars).isWhole ↔ (ofText chars).last.lexeme = [] := by
  have closing := isEnd_last chars
  simp only [isEnd, decide_eq_true_eq] at closing
  rw [isWhole, decide_eq_true_eq, text, closing]
  rcases last_readFrom {} 0 chars with none | ⟨what, opened⟩
  · have nothing : (ofText chars).last.lexeme = [] := none
    simp [nothing]
  · have some : (ofText chars).last.lexeme ≠ [] := by
      intro nothing
      rw [← ofText, nothing] at opened
      cases opened
    refine ⟨fun shown => ?_, fun nothing => absurd nothing some⟩
    rw [if_neg (by simp [some])] at shown
    have lexeme : (ofText chars).last.lexeme = endText.toList := by rw [← shown]; simp
    have shut : Lexeme.opened? endText.toList = none := by decide
    rw [← ofText, lexeme, shut] at opened
    cases opened

theorem unterminated?_readFrom (cursor : Cursor) (index : Nat) (chars : List Char) :
    (readFrom cursor index chars).unterminated? = none ↔
      (readFrom cursor index chars).last.lexeme = [] := by
  fun_induction readFrom cursor index chars with
  | case1 | case2 => simp
  | case3 _ _ _ _ _ _ _ _ _ ih => exact ih

/-- The text is read to its end where nothing is left open. -/
theorem unterminated?_eq_none_iff (chars : List Char) :
    (ofText chars).unterminated? = none ↔ (ofText chars).body.flatMap (·.lexeme) = chars := by
  have all := lexemes_readFrom {} 0 chars
  rw [ofText, unterminated?_readFrom]
  constructor
  · intro nothing
    rwa [nothing, List.append_nil] at all
  · intro body
    rw [body] at all
    exact List.self_eq_append_right.mp all.symm

end CypherAssist.Token.Stream
