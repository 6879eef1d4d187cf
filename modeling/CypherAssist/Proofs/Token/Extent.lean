import CypherAssist.Proofs.Token.Boundary

/-! The extent of tokens. Every lexeme takes at least one character and none that is not there, so a
token is the lexeme that is found at its place, and reading goes on right behind it. -/
namespace CypherAssist.Token

namespace Lexeme

variable {text : List Char} {length : Nat}

/-! ## The length of a lexeme -/

theorem length_of_run? {accepts : Char → Bool} (found : run? accepts text = some length) :
    0 < length ∧ length ≤ text.length := by
  have short := run_le accepts text
  rw [run_of_run? found] at short
  refine ⟨Nat.pos_of_ne_zero ?_, short⟩
  rintro rfl
  rw [run?, run_of_run? found] at found
  cases found

theorem length_of_commentEnd? (found : commentEnd? text = some length) : length ≤ text.length := by
  fun_induction commentEnd? text generalizing length with
  | case1 => cases found
  | case2 rest =>
    cases found
    simp
  | case3 c rest other ih =>
    obtain ⟨distance, inner, rfl⟩ := Option.map_eq_some_iff.mp found
    have short := ih inner
    rw [List.length_cons]
    omega

theorem length_of_stringEnd? {quote : Char} (found : stringEnd? quote text = some length) :
    length ≤ text.length := by
  fun_induction stringEnd? quote text generalizing length with
  | case1 => cases found
  | case2 c rest ih =>
    obtain ⟨distance, inner, rfl⟩ := Option.map_eq_some_iff.mp found
    have short := ih inner
    simp only [List.length_cons]
    omega
  | case3 =>
    cases found
    simp
  | case4 => cases found
  | case5 c rest _ _ _ ih =>
    obtain ⟨distance, inner, rfl⟩ := Option.map_eq_some_iff.mp found
    have short := ih inner
    rw [List.length_cons]
    omega

theorem length_of_nameEnd? (found : nameEnd? text = some length) : length ≤ text.length := by
  fun_induction nameEnd? text generalizing length with
  | case1 => cases found
  | case2 rest distance closed ih =>
    cases found
    have short := ih closed
    simp only [List.length_cons]
    omega
  | case3 | case4 =>
    cases found
    simp
  | case5 c rest _ _ ih =>
    obtain ⟨distance, inner, rfl⟩ := Option.map_eq_some_iff.mp found
    have short := ih inner
    rw [List.length_cons]
    omega

theorem length_of_exponent? (found : exponent? text = some length) : length ≤ text.length := by
  unfold exponent? at found
  split at found
  · cases found
  · rename_i c rest
    split at found
    · obtain ⟨digits, inner, rfl⟩ := Option.map_eq_some_iff.mp found
      have short := length_of_run? inner
      rw [List.length_drop] at short
      rw [List.length_cons]
      omega
    · cases found

/-- A decimal starts with its digits and ends where its last part does. -/
theorem length_of_decimal? (found : decimal? text = some length) :
    0 < length ∧ length ≤ text.length := by
  simp only [decimal?, Option.bind_eq_bind, Option.bind_eq_some_iff] at found
  obtain ⟨whole, digits, found⟩ := found
  have front := length_of_run? digits
  have size : text.length = whole + (text.drop whole).length := by
    rw [List.length_drop]
    omega
  split at found
  · rename_i rest behind
    obtain ⟨fraction, digits, rfl⟩ := by
      simpa only [Option.bind_eq_some_iff, Option.pure_def, Option.some.injEq] using found
    have middle := length_of_run? digits
    have power : (exponent? (rest.drop fraction)).getD 0 ≤ (rest.drop fraction).length := by
      cases inner : exponent? (rest.drop fraction) with
      | none => exact Nat.zero_le _
      | some length => exact length_of_exponent? inner
    rw [List.length_drop] at power
    rw [behind, List.length_cons] at size
    omega
  · obtain ⟨power, inner, rfl⟩ := by
      simpa only [Option.bind_eq_some_iff, Option.pure_def, Option.some.injEq] using found
    have short := length_of_exponent? inner
    omega

theorem length_of_lineComment? (found : lineComment? text = some length) :
    0 < length ∧ length ≤ text.length := by
  unfold lineComment? at found
  split at found
  · rename_i rest
    cases found
    have short := run_le (fun c => c != '\r' && c != '\n') rest
    simp only [List.length_cons]
    omega
  · cases found

theorem length_of_blockComment? (found : blockComment? text = some length) :
    0 < length ∧ length ≤ text.length := by
  unfold blockComment? at found
  split at found
  · obtain ⟨distance, inner, rfl⟩ := Option.map_eq_some_iff.mp found
    have short := length_of_commentEnd? inner
    simp only [List.length_cons]
    omega
  · cases found

theorem length_of_string? {quote : Char} (found : string? quote text = some length) :
    0 < length ∧ length ≤ text.length := by
  unfold string? at found
  split at found
  · cases found
  · split at found
    · obtain ⟨distance, inner, rfl⟩ := Option.map_eq_some_iff.mp found
      have short := length_of_stringEnd? inner
      rw [List.length_cons]
      omega
    · cases found

theorem length_of_quotedName? (found : quotedName? text = some length) :
    0 < length ∧ length ≤ text.length := by
  unfold quotedName? at found
  split at found
  · obtain ⟨distance, inner, rfl⟩ := Option.map_eq_some_iff.mp found
    have short := length_of_nameEnd? inner
    rw [List.length_cons]
    omega
  · cases found

theorem length_of_word? (found : word? text = some length) :
    0 < length ∧ length ≤ text.length := by
  refine ⟨?_, length_le_of_word? found⟩
  unfold word? at found
  split at found
  · cases found
  · split at found
    · cases found
      omega
    · cases found

theorem length_of_complete? {kind : Kind} (found : complete? text = some (kind, length)) :
    0 < length ∧ length ≤ text.length := by
  simp only [complete?, Option.orElse_eq_orElse, Option.orElse_eq_or, Option.or_eq_some_iff,
    Option.map_eq_some_iff, Prod.mk.injEq, exists_eq_right_right] at found
  rcases found with ⟨blank, -⟩ | ⟨-, ⟨line, -⟩ | ⟨-, ⟨block, -⟩ | ⟨-, ⟨decimal, -⟩ |
    ⟨-, ⟨integer, -⟩ | ⟨-, ⟨single, -⟩ | ⟨-, ⟨double, -⟩ | ⟨-, ⟨quoted, -⟩ | ⟨-, word, -⟩⟩⟩⟩⟩⟩⟩⟩
  · exact length_of_run? blank
  · exact length_of_lineComment? line
  · exact length_of_blockComment? block
  · exact length_of_decimal? decimal
  · exact length_of_run? integer
  · exact length_of_string? single
  · exact length_of_string? double
  · exact length_of_quotedName? quoted
  · exact length_of_word? word

/-- A lexeme takes at least one character, and none that is not there. -/
theorem length_of_next {kind : Kind} (some : text ≠ []) (starts : next text = .token kind length) :
    0 < length ∧ length ≤ text.length := by
  have begun := List.length_pos_iff.mpr some
  unfold next at starts
  split at starts
  · rename_i complete
    cases starts
    exact length_of_complete? complete
  · split at starts
    · cases starts
    · split at starts
      · rename_i symbol found
        cases starts
        have fits := List.find?_some found
        exact ⟨List.length_pos_iff.mpr (Symbol.spelling_ne_nil symbol),
          (List.isPrefixOf_iff_prefix.mp fits).length_le⟩
      · cases starts
        exact ⟨Nat.one_pos, begun⟩

end Lexeme

namespace Stream

/-- An induction over what is read: nothing, a construct that is never closed, or a token that takes
a beginning of the text and what is read behind it. -/
@[elab_as_elim]
theorem readFrom_induction {motive : Cursor → Nat → List Char → Stream → Prop}
    (nothing : ∀ cursor index, motive cursor index [] ⟨[], ⟨.endOfFile, [], cursor, index⟩, none⟩)
    (opened : ∀ cursor index text what, text ≠ [] → Lexeme.next text = .unterminated what →
      motive cursor index text ⟨[], ⟨.endOfFile, text, cursor, index⟩, some what⟩)
    (token : ∀ cursor index kind lexeme rest, lexeme ≠ [] →
      Lexeme.next (lexeme ++ rest) = .token kind lexeme.length →
      motive (cursor.after lexeme) (index + 1) rest
        (readFrom (cursor.after lexeme) (index + 1) rest) →
      motive cursor index (lexeme ++ rest)
        (prepend [⟨kind, lexeme, cursor, index⟩]
          (readFrom (cursor.after lexeme) (index + 1) rest)))
    (cursor : Cursor) (index : Nat) (text : List Char) :
    motive cursor index text (readFrom cursor index text) := by
  fun_induction readFrom cursor index text with
  | case1 cursor index => exact nothing cursor index
  | case2 cursor index c rest what starts =>
    exact opened cursor index _ what (List.cons_ne_nil _ _) starts
  | case3 cursor index c rest kind length starts lexeme following ih =>
    obtain ⟨begun, short⟩ := Lexeme.length_of_next (List.cons_ne_nil _ _) starts
    have size : lexeme.length = length := by
      simp only [lexeme, List.length_cons, List.length_take] at short ⊢
      omega
    have split : c :: rest = lexeme ++ rest.drop (length - 1) := by
      rw [List.cons_append, List.take_append_drop]
    have found : Lexeme.next (lexeme ++ rest.drop (length - 1)) = .token kind lexeme.length := by
      rw [← split, size, starts]
    rw [split]
    exact token cursor index kind lexeme _ (List.cons_ne_nil _ _) found ih

variable {cursor : Cursor} {index : Nat} {chars : List Char} {token : Token}

theorem length_body_le (cursor : Cursor) (index : Nat) (chars : List Char) :
    (readFrom cursor index chars).body.length ≤ chars.length := by
  induction cursor, index, chars using readFrom_induction with
  | nothing | opened => exact Nat.zero_le _
  | token cursor index kind lexeme rest some starts ih =>
    have begun := List.length_pos_iff.mpr some
    simp only [prepend, List.length_append, List.length_singleton]
    omega

/-- The closing token knows its place as the others do. -/
theorem last_readFrom_place (cursor : Cursor) (index : Nat) (chars : List Char) :
    (readFrom cursor index chars).last.index =
        index + (readFrom cursor index chars).body.length ∧
      (readFrom cursor index chars).last.place =
        cursor.after ((readFrom cursor index chars).body.flatMap (·.lexeme)) := by
  induction cursor, index, chars using readFrom_induction with
  | nothing | opened => exact ⟨rfl, rfl⟩
  | token cursor index kind lexeme rest some starts ih =>
    refine ⟨?_, ?_⟩
    · simp only [prepend, List.length_append, List.length_singleton]
      omega
    · simpa [prepend] using ih.2

/-- A token is the lexeme that is found at its place. -/
theorem reads_of_mem (member : token ∈ (readFrom cursor index chars).body) :
    token.lexeme ≠ [] ∧ ∃ before behind, chars = before ++ (token.lexeme ++ behind) ∧
      token.place = cursor.after before ∧
      Lexeme.next (token.lexeme ++ behind) = .token token.kind token.lexeme.length := by
  induction cursor, index, chars using readFrom_induction with
  | nothing | opened => cases member
  | token cursor index kind lexeme rest some starts ih =>
    rcases List.mem_cons.mp member with rfl | later
    · exact ⟨some, [], rest, rfl, rfl, starts⟩
    · obtain ⟨other, before, behind, same, place, found⟩ := ih later
      exact ⟨other, lexeme ++ before, behind, by simp [same], by simp [place], found⟩

end Stream

end CypherAssist.Token
