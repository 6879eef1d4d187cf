import CypherAssist.Proofs.Token.Munch
import Mathlib.Data.List.Induction

/-! Lines and columns of tokens. A token knows how many newlines stand in front of it and how far it
is from the last of them. A character in error is never a newline, so it takes lexemes of other
kinds to get to another line. -/
namespace CypherAssist.Token

/-- Where the last line of a text starts: right behind the last newline, or with the text if it has
none. -/
def lineStart : List Char → Nat
  | [] => 0
  | c :: rest => if '\n' ∈ rest then lineStart rest + 1 else if c = '\n' then 1 else 0

/-- A newline at the end starts a line of its own; any other character goes on with the last one. -/
theorem lineStart_snoc (text : List Char) (c : Char) :
    lineStart (text ++ [c]) = if c = '\n' then text.length + 1 else lineStart text := by
  induction text with
  | nil => simp [lineStart]
  | cons first rest ih =>
    rw [List.cons_append, lineStart, ih]
    by_cases newline : c = '\n'
    · simp [newline]
    · have same : '\n' ∈ rest ++ [c] ↔ '\n' ∈ rest := by simp [Ne.symm newline]
      rw [if_neg newline, if_neg newline, lineStart]
      simp only [same]

namespace Cursor

/-- A cursor counts the newlines passed. -/
theorem line_after (text : List Char) : (after {} text).line = 1 + text.count '\n' := by
  induction text using List.reverseRecOn with
  | nil => rfl
  | append_singleton text c ih =>
    have step : after {} (text ++ [c]) = (after {} text).advance c := by simp; rfl
    rw [step, advance]
    by_cases newline : c = '\n'
    · simp [newline, ih, Nat.add_assoc]
    · simp [newline, ih]

/-- A cursor counts the characters since the last newline. -/
theorem column_after (text : List Char) :
    lineStart text + (after {} text).column = text.length := by
  induction text using List.reverseRecOn with
  | nil => rfl
  | append_singleton text c ih =>
    have step : after {} (text ++ [c]) = (after {} text).advance c := by simp; rfl
    rw [step, advance, lineStart_snoc, List.length_append, List.length_singleton]
    by_cases newline : c = '\n'
    · simp [newline]
    · simp only [newline, if_false]
      omega

end Cursor

/-- A character in error starts no lexeme, and a newline starts a blank. -/
theorem newline_not_mem_of_error {lexeme rest : List Char}
    (starts : Lexeme.next (lexeme ++ rest) = .token .errorChar lexeme.length)
    (some : lexeme ≠ []) : '\n' ∉ lexeme := by
  have munches := munches_next (List.append_ne_nil_of_left_ne_nil some rest)
  generalize size : lexeme.length = length at starts
  rw [starts] at munches
  cases munches with
  | longest _ _ spelt => cases spelt
  | error _ _ none =>
    obtain ⟨c, rfl⟩ := List.length_eq_one_iff.mp size
    intro newline
    obtain rfl := List.mem_singleton.mp newline
    have blank (c : Char) (member : c ∈ ['\n']) : Text.isBlank c := by
      rw [List.mem_singleton.mp member]
      rfl
    exact none .blank ['\n'] (List.prefix_append _ _) (.blank ⟨by simp, blank⟩)

namespace Stream

/-- The line of a token is one more than the newlines in front of it, and its column is its distance
from where that line starts; no character in error is a newline. This holds of the closing token
too. -/
theorem line_and_column_exact (chars : List Char) :
    ∀ token ∈ (ofText chars).toList,
      token.line = 1 + (chars.take token.start).count '\n' ∧
      lineStart (chars.take token.start) ≤ token.start ∧
      token.column = token.start - lineStart (chars.take token.start) ∧
      (token.kind = .errorChar → '\n' ∉ token.lexeme) := by
  intro token member
  obtain ⟨before, behind, whole, place⟩ := place_of_mem member
  have start : token.start = before.length := by simp [start, place]
  have front : chars.take token.start = before := by rw [start, whole, List.take_left]
  have passed := Cursor.column_after before
  rw [front, start, line, column, place]
  refine ⟨Cursor.line_after before, by omega, by omega, fun error => ?_⟩
  rcases List.mem_append.mp member with inside | closing
  · obtain ⟨some, -, rest, -, -, starts⟩ := reads_of_mem inside
    exact newline_not_mem_of_error (error ▸ starts) some
  · have ends := isEnd_last chars
    rw [← List.mem_singleton.mp closing, isEnd, decide_eq_true_eq, error] at ends
    cases ends

/-- Behind a string over two lines and a character in error, the name stands on the third line. -/
theorem third_line_found :
    ∃ token ∈ (ofText "RETURN 'a\nb' #\n  x".toList).toList,
      token.start = 17 ∧ token.line = 3 ∧ token.column = 2 := by
  obtain ⟨token, member, start⟩ :
      ∃ token ∈ (ofText "RETURN 'a\nb' #\n  x".toList).toList, token.start = 17 := by
    decide +kernel
  have exact := line_and_column_exact _ token member
  rw [start] at exact
  exact ⟨token, member, start, exact.1.trans (by decide), exact.2.2.1.trans (by decide)⟩

end Stream

end CypherAssist.Token
