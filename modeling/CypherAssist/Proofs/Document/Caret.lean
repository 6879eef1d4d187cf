import CypherAssist.Document.Diagnostic
import CypherAssist.Proofs.Document.Lines
import CypherAssist.Proofs.Token.Place
import CypherAssist.Text.Caret

/-! Places of tokens and positions of carets. Both count lines and the characters in them, but a
carriage return by itself ends a line for a caret and none for a token. The position under which a
token is reported therefore leads back to the token exactly where no carriage return in front of it
stands alone; behind one that does, the caret stops short of the token. -/
namespace CypherAssist

namespace Text

variable {text rest before front : List Char} {above : List (List Char)} {c : Char}

/-- No carriage return stands alone: each has a newline behind it. -/
def ReturnsPaired (text : List Char) : Prop :=
  ∀ index, text[index]? = some '\r' → text[index + 1]? = some '\n'

theorem returnsPaired_cons :
    ReturnsPaired (c :: rest) ↔ (c = '\r' → rest.head? = some '\n') ∧ ReturnsPaired rest := by
  constructor
  · intro paired
    refine ⟨fun isReturn => ?_, fun index => by simpa using paired (index + 1)⟩
    simpa [List.head?_eq_getElem?] using paired 0 (by simp [isReturn])
  · rintro ⟨first, later⟩ (_ | index) found
    · simpa [List.head?_eq_getElem?] using first (by simpa using found)
    · simpa using later index (by simpa using found)

/-- The number of lines that end in a text for a caret. -/
def lineEnds : List Char → Nat
  | [] => 0
  | '\r' :: '\n' :: rest => lineEnds rest + 1
  | c :: rest => lineEnds rest + if isLineEnd c then 1 else 0

theorem lineEnds_cons_le (c : Char) (rest : List Char) :
    lineEnds (c :: rest) ≤ lineEnds rest + if isLineEnd c then 1 else 0 := by
  by_cases both : c = '\r' ∧ rest.head? = some '\n'
  · obtain ⟨rfl, newline⟩ := both
    obtain ⟨behind, rfl⟩ := List.head?_eq_some_iff.mp newline
    simp [lineEnds, isLineEnd]
  · have alone : lineEnds (c :: rest) = lineEnds rest + if isLineEnd c then 1 else 0 := by
      rw [lineEnds]
      rintro behind rfl rfl
      exact both ⟨rfl, rfl⟩
    exact Nat.le_of_eq alone

theorem lineEnds_eq_zero (within : ∀ c ∈ text, isLineEnd c = false) : lineEnds text = 0 := by
  induction text with
  | nil => rfl
  | cons c rest ih =>
    have first := lineEnds_cons_le c rest
    rw [ih fun other member => within other (List.mem_cons_of_mem c member),
      within c List.mem_cons_self] at first
    simpa using first

/-- In front of a caret no more lines end than its position has in front. -/
theorem lineEnds_untilCaret (lines character : Nat) (text : List Char) :
    lineEnds (untilCaret lines character text) ≤ lines := by
  fun_induction untilCaret lines character text with
  | case1 character text =>
    refine Nat.le_of_eq (lineEnds_eq_zero fun c member => ?_)
    have accepted := List.all_eq_true.mp List.all_takeWhile c (List.mem_of_mem_take member)
    simpa using accepted
  | case2 => exact Nat.zero_le _
  | case3 lines character rest ih => simpa [lineEnds] using ih
  | case4 lines character c rest _ ih =>
    refine Nat.le_trans (lineEnds_cons_le _ _) ?_
    by_cases ends : isLineEnd c
    · simpa [ends] using ih
    · simpa [ends] using ih

/-- A newline ends a line for a caret too. -/
theorem count_le_lineEnds (text : List Char) : text.count '\n' ≤ lineEnds text := by
  fun_induction lineEnds text with
  | case1 => exact Nat.zero_le _
  | case2 rest ih => simpa using ih
  | case3 c rest _ ih =>
    by_cases newline : c = '\n'
    · simpa [newline, isLineEnd] using ih
    · rw [List.count_cons_of_ne newline]
      exact Nat.le_trans ih (Nat.le_add_right _ _)

/-- Lines end for a caret at the newlines alone exactly where no carriage return stands alone. -/
theorem lineEnds_eq_count_iff : lineEnds text = text.count '\n' ↔ ReturnsPaired text := by
  fun_induction lineEnds text with
  | case1 => simp [ReturnsPaired]
  | case2 rest ih => simp [returnsPaired_cons, ih]
  | case3 c rest apart ih =>
    rw [returnsPaired_cons, ← ih]
    by_cases isReturn : c = '\r'
    · subst isReturn
      have alone : rest.head? ≠ some '\n' := fun newline => by
        obtain ⟨behind, rfl⟩ := List.head?_eq_some_iff.mp newline
        exact apart behind rfl rfl
      have fewer := count_le_lineEnds rest
      simp only [isLineEnd, alone, List.count_cons_of_ne (show '\r' ≠ '\n' by decide)]
      simp
      omega
    · by_cases newline : c = '\n'
      · simp [newline, isLineEnd]
      · simp [isReturn, newline, isLineEnd]

instance (text : List Char) : Decidable (ReturnsPaired text) :=
  decidable_of_iff _ lineEnds_eq_count_iff

theorem untilCaret_cons (inside : isLineEnd c = false) (character : Nat) (rest : List Char) :
    untilCaret 0 (character + 1) (c :: rest) = c :: untilCaret 0 character rest := by
  simp [untilCaret, inside]

theorem untilCaret_succ_cons (other : c ≠ '\r') (lines character : Nat) (rest : List Char) :
    untilCaret (lines + 1) character (c :: rest) =
      c :: untilCaret (if isLineEnd c then lines else lines + 1) character rest := by
  rw [untilCaret]
  rintro behind rfl
  exact absurd rfl other

/-- Behind a line that has ended there is another one. -/
theorem above_of_splitLines {line : List Char}
    (lines : line :: Highlight.splitLines rest = above ++ [front]) :
    ∃ others, above = line :: others ∧ Highlight.splitLines rest = others ++ [front] := by
  rcases List.cons_eq_append_iff.mp lines with ⟨-, last⟩ | found
  · obtain ⟨others, begins⟩ := Highlight.splitLines_cons rest
    simp [begins] at last
  · exact found

/-- Where no carriage return stands alone, a caret in the line that the newlines have led to, behind
the characters passed in it, stands behind all that has been passed. -/
theorem untilCaret_of_paired (paired : ReturnsPaired before)
    (lines : Highlight.splitLines before = above ++ [front]) (behind : List Char) :
    untilCaret above.length front.length (before ++ behind) = before := by
  fun_induction lineEnds before generalizing above front with
  | case1 =>
    obtain ⟨rfl, rfl⟩ : above = [] ∧ front = [] := by
      cases above <;> simp_all [Highlight.splitLines]
    simp [untilCaret]
  | case2 rest ih =>
    obtain ⟨-, paired⟩ := returnsPaired_cons.mp paired
    obtain ⟨-, paired⟩ := returnsPaired_cons.mp paired
    have begins : Highlight.splitLines ('\r' :: '\n' :: rest) =
        ['\r'] :: Highlight.splitLines rest := by simp [Highlight.splitLines]
    obtain ⟨others, rfl, same⟩ := above_of_splitLines (begins ▸ lines)
    simp [untilCaret, ih paired same]
  | case3 c rest apart ih =>
    obtain ⟨first, later⟩ := returnsPaired_cons.mp paired
    have other : c ≠ '\r' := fun isReturn => by
      obtain ⟨more, rfl⟩ := List.head?_eq_some_iff.mp (first isReturn)
      exact apart more isReturn rfl
    by_cases newline : c = '\n'
    · rw [Highlight.splitLines, if_pos newline] at lines
      obtain ⟨others, rfl, same⟩ := above_of_splitLines lines
      rw [List.length_cons, List.cons_append, untilCaret_succ_cons other]
      simp [newline, isLineEnd, ih later same]
    · have inside : isLineEnd c = false := by simp [isLineEnd, newline, other]
      obtain ⟨others, begins⟩ := Highlight.splitLines_cons rest
      rw [Highlight.splitLines, if_neg newline, begins] at lines
      rcases List.cons_eq_append_iff.mp lines with ⟨rfl, same⟩ | ⟨above, rfl, same⟩
      · -- the line goes on to the end, and the caret stays in it
        obtain ⟨rfl, rfl⟩ : front = c :: rest.takeWhile (· != '\n') ∧ others = [] := by
          simpa using same
        have inner := ih later (begins.trans (List.nil_append _).symm)
        rw [List.length_nil] at inner
        rw [List.length_cons, List.cons_append, List.length_nil, untilCaret_cons inside, inner]
      · have inner : untilCaret (above.length + 1) front.length (rest ++ behind) = rest := by
          refine @ih front (rest.takeWhile (· != '\n') :: above) later ?_
          rw [begins, same, List.cons_append]
        rw [List.length_cons, List.cons_append, untilCaret_succ_cons other, inside,
          if_neg (by simp), inner]

theorem length_splitLines (text : List Char) :
    (Highlight.splitLines text).length = text.count '\n' + 1 := by
  induction text with
  | nil => rfl
  | cons c rest ih =>
    by_cases newline : c = '\n'
    · simp [Highlight.splitLines, newline, ih]
    · obtain ⟨others, begins⟩ := Highlight.splitLines_cons rest
      rw [begins, List.length_cons, Nat.add_right_cancel_iff] at ih
      simp [Highlight.splitLines, newline, begins, ih]

/-- The lines and columns that newlines make are those of a caret exactly where no carriage return
stands alone. -/
theorem untilCaret_after_iff (before behind : List Char) :
    untilCaret ((Token.Cursor.after {} before).line - 1) (Token.Cursor.after {} before).column
      (before ++ behind) = before ↔ ReturnsPaired before := by
  obtain ⟨above, front, counts⟩ := Highlight.counts_after before
  rw [counts.line, counts.column, Nat.add_sub_cancel]
  refine ⟨fun same => ?_, fun paired => untilCaret_of_paired paired counts.split behind⟩
  have few := lineEnds_untilCaret above.length front.length (before ++ behind)
  have passed := length_splitLines before
  rw [counts.split, List.length_append, List.length_singleton, Nat.add_right_cancel_iff] at passed
  rw [same, passed] at few
  exact lineEnds_eq_count_iff.mp (Nat.le_antisymm few (count_le_lineEnds before))

end Text

namespace Token

/-- The position of a token for a client: its line and column, counted from zero. -/
def clientPosition (token : Token) : Text.Position := ⟨token.line - 1, token.column⟩

/-- Where a token is reported to a client: its problems start at the position, and so do its
colours, unless its first line is empty and has none. -/
structure ReportedAt (token : Token) (position : Text.Position) : Prop where
  marked : ∀ problem, (Diagnostic.ofIssue ⟨problem, token⟩).startLine = position.line ∧
    (Diagnostic.ofIssue ⟨problem, token⟩).startColumn = position.character
  coloured : token.lexeme.head? ≠ some '\n' → ∀ colour,
    ∀ piece ∈ (Highlight.pieces token colour).head?,
      piece.line = position.line ∧ piece.start = position.character

theorem reportedAt_clientPosition (token : Token) : token.ReportedAt token.clientPosition := by
  refine ⟨fun problem => ⟨rfl, rfl⟩, fun begins colour piece first => ?_⟩
  obtain ⟨others, lines⟩ := Highlight.splitLines_cons token.lexeme
  rw [Highlight.pieces, lines, Highlight.piecesFrom] at first
  cases lexeme : token.lexeme with
  | nil =>
    rw [lexeme] at lines first
    cases others with
    | nil => simp [Highlight.piecesFrom] at first
    | cons line others => simp [Highlight.splitLines] at lines
  | cons c rest =>
    have other : c ≠ '\n' := by simpa [lexeme] using begins
    have some : (token.lexeme.takeWhile (· != '\n')).isEmpty = false := by simp [lexeme, other]
    rw [some, if_neg (by simp)] at first
    cases first
    exact ⟨rfl, rfl⟩

/-- A token is reported at its position, which leads back to the token, with the text in front of it
and no more, exactly where no carriage return in that text stands alone. -/
theorem position_leads_back_iff (text : String) :
    ∀ token ∈ (Stream.ofText text.toList).toList,
      token.ReportedAt token.clientPosition ∧
        (Text.untilPosition text token.clientPosition =
            String.ofList (text.toList.take token.start) ↔
          Text.ReturnsPaired (text.toList.take token.start)) := by
  intro token member
  refine ⟨reportedAt_clientPosition token, ?_⟩
  obtain ⟨before, behind, whole, place⟩ := Stream.place_of_mem member
  have start : token.start = before.length := by simp [start, place]
  rw [start, whole, List.take_left, Text.untilPosition, String.ofList_inj, clientPosition,
    line, column, place, whole]
  exact Text.untilCaret_after_iff before _

/-- Behind line ends that hold a newline, with a carriage return or without, the second statement is
found again. -/
theorem return_found_behind_newlines :
    ∃ token ∈ (Stream.ofText "RETURN 1\r\n;\nRETURN 2".toList).toList, token.start = 12 ∧
      Text.untilPosition "RETURN 1\r\n;\nRETURN 2" token.clientPosition = "RETURN 1\r\n;\n" := by
  obtain ⟨token, member, start⟩ :
      ∃ token ∈ (Stream.ofText "RETURN 1\r\n;\nRETURN 2".toList).toList, token.start = 12 := by
    decide +kernel
  have back := (position_leads_back_iff "RETURN 1\r\n;\nRETURN 2" token member).2
  rw [start] at back
  exact ⟨token, member, start, back.mpr (by decide +kernel)⟩

/-- Behind a carriage return that stands alone it is not. -/
theorem return_lost_behind_return :
    ¬ ∀ token ∈ (Stream.ofText "RETURN 1\rRETURN 2".toList).toList,
      Text.untilPosition "RETURN 1\rRETURN 2" token.clientPosition =
        String.ofList ("RETURN 1\rRETURN 2".toList.take token.start) := by
  decide +kernel

end Token

end CypherAssist
