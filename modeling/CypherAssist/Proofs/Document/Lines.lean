import CypherAssist.Document.Highlight
import Mathlib.Algebra.GroupWithZero.Nat
import Mathlib.Data.List.Induction

/-! Lines and columns. What a cursor counts while it moves over a text are the lines that the text
is split into: it stands behind all of them but the last, in that one at its end. -/
namespace CypherAssist.Highlight
open Token

variable {text front first : List Char} {before others : List (List Char)}

/-- The line that a text starts with goes to its first newline. -/
theorem splitLines_cons (text : List Char) :
    ∃ others, splitLines text = text.takeWhile (· != '\n') :: others := by
  induction text with
  | nil => exact ⟨[], rfl⟩
  | cons c rest ih =>
    obtain ⟨others, lines⟩ := ih
    by_cases newline : c = '\n'
    · simp [splitLines, newline]
    · exact ⟨others, by simp [splitLines, newline, lines]⟩

/-- Where two texts meet, the last line of one and the first of the other are one line. -/
theorem splitLines_append (ends : splitLines text = before ++ [front])
    (begins : splitLines rest = first :: others) :
    splitLines (text ++ rest) = before ++ (front ++ first) :: others := by
  induction text generalizing before front with
  | nil =>
    cases before with
    | nil =>
      cases ends
      simpa using begins
    | cons line lines => cases lines <;> cases ends
  | cons c tail ih =>
    by_cases newline : c = '\n'
    · simp only [List.cons_append, splitLines, newline, if_pos] at ends ⊢
      cases before with
      | nil =>
        obtain ⟨more, lines⟩ := splitLines_cons tail
        simp [lines] at ends
      | cons line lines =>
        obtain ⟨rfl, inner⟩ := List.cons.inj ends
        rw [ih inner]
        rfl
    · obtain ⟨more, lines⟩ := splitLines_cons tail
      simp only [List.cons_append, splitLines, if_neg newline, lines] at ends ⊢
      cases before with
      | nil =>
        obtain ⟨rfl, rfl⟩ := List.cons.inj ends
        rw [@ih _ [] lines]
        rfl
      | cons line inner =>
        obtain ⟨rfl, rfl⟩ := List.cons.inj ends
        rw [@ih _ (_ :: inner) lines]
        rfl

/-- What a cursor has counted: the lines of the text passed, all of them but the last passed
whole. -/
structure Counts (text : List Char) (cursor : Cursor) (before : List (List Char))
    (front : List Char) : Prop where
  split : splitLines text = before ++ [front]
  line : cursor.line = before.length + 1
  column : cursor.column = front.length
  length : (before.map (·.length + 1)).sum + front.length = text.length

/-- A cursor counts the lines of a text and the characters of the last one. -/
theorem counts_after (text : List Char) : ∃ before front, Counts text (Cursor.after {} text) before
    front := by
  induction text using List.reverseRecOn with
  | nil => exact ⟨[], [], rfl, rfl, rfl, rfl⟩
  | append_singleton text c ih =>
    obtain ⟨before, front, counts⟩ := ih
    have step : Cursor.after {} (text ++ [c]) = (Cursor.after {} text).advance c := by simp; rfl
    rw [step, Cursor.advance]
    have length := counts.length
    by_cases newline : c = '\n'
    · have begins : splitLines [c] = [] :: [[]] := by simp [splitLines, newline]
      refine ⟨before ++ [front], [], ?_, ?_, ?_, ?_⟩
      · simpa using splitLines_append counts.split begins
      · simp [newline, counts.line]
      · simp [newline]
      · simp only [List.map_append, List.map_cons, List.map_nil, List.sum_append, List.sum_cons,
          List.sum_nil, List.length_append, List.length_cons, List.length_nil]
        omega
    · have begins : splitLines [c] = [c] :: [] := by simp [splitLines, newline]
      refine ⟨before, front ++ [c], splitLines_append counts.split begins, ?_, ?_, ?_⟩
      · simp [newline, counts.line]
      · simp [newline, counts.column]
      · simp only [List.length_append, List.length_cons, List.length_nil]
        omega

/-- A piece of a text begins on an existing line, in the column that a cursor has counted up to it,
and its part before the first newline lies on that line. -/
theorem line_of_piece (before piece behind : List Char) :
    ∃ line, (splitLines (before ++ (piece ++ behind)))[(Cursor.after {} before).line - 1]? =
        some line ∧
      (((splitLines (before ++ (piece ++ behind))).take ((Cursor.after {} before).line - 1)).map
        (·.length + 1)).sum + (Cursor.after {} before).column = before.length ∧
      (Cursor.after {} before).column ≤ line.length ∧
      piece.takeWhile (· != '\n') <+: line.drop (Cursor.after {} before).column := by
  obtain ⟨lines, front, counts⟩ := counts_after before
  obtain ⟨others, begins⟩ := splitLines_cons (piece ++ behind)
  have same := splitLines_append counts.split begins
  rw [same, counts.line, counts.column, Nat.add_sub_cancel]
  refine ⟨front ++ (piece ++ behind).takeWhile (· != '\n'), by simp, ?_, by simp, ?_⟩
  · rw [List.take_left]
    exact counts.length
  · rw [List.drop_left, List.takeWhile_append]
    split
    · exact (List.takeWhile_prefix _).trans (List.prefix_append _ _)
    · exact List.prefix_rfl

end CypherAssist.Highlight
