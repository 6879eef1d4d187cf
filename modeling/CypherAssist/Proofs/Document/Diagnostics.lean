import CypherAssist.Document.Diagnostic
import CypherAssist.Proofs.Document.Lines
import CypherAssist.Proofs.Document.Localisation
import CypherAssist.Proofs.Token.Place

/-! Diagnostics are silent exactly on valid documents: those that are read to their end and whose
visible tokens make up a document, or that have none. Whatever else is found is marked where it
stands. -/
namespace CypherAssist.Diagnostic
open Token Grammar Document

variable {limits : Limits}

/-- A diagnostic marks the part of a token on its first line: the range lies on one line of the
text, starts at the first character of the token and covers what the token has on that line; at the
regular end of the text it covers nothing. -/
structure Marks (text : List Char) (token : Token) (diagnostic : Diagnostic) : Prop where
  single : diagnostic.endLine = diagnostic.startLine
  begins : ((Highlight.splitLines text).take diagnostic.startLine |>.map (·.length + 1)).sum +
    diagnostic.startColumn = token.start
  lexeme : token.lexeme <+: text.drop token.start
  covers : ∃ line, (Highlight.splitLines text)[diagnostic.startLine]? = some line ∧
    diagnostic.startColumn ≤ diagnostic.endColumn ∧ diagnostic.endColumn ≤ line.length ∧
    (line.drop diagnostic.startColumn).take (diagnostic.endColumn - diagnostic.startColumn) =
      token.lexeme.takeWhile (· != '\n')
  regular : token.isEnd → token.text = endText → diagnostic.endColumn = diagnostic.startColumn

/-- The closing token of a text that is read to its end covers nothing. -/
theorem lexeme_of_regular {text : String} {token : Token}
    (member : token ∈ (Stream.ofText text.toList).toList) (ends : token.isEnd)
    (shown : token.text = endText) : token.lexeme = [] := by
  rcases List.mem_append.mp member with inBody | last
  · have inner : token.isEnd = false := Stream.isEnd_of_mem_body inBody
    rw [inner] at ends
    cases ends
  · cases List.mem_singleton.mp last
    exact (Stream.isWhole_iff text.toList).mp (decide_eq_true shown)

/-- Every problem is marked at its token. -/
theorem marks_ofIssue {text : String} {issue : Issue}
    (member : issue.token ∈ (Stream.ofText text.toList).toList) :
    Marks text.toList issue.token (ofIssue issue) := by
  obtain ⟨before, behind, same, place⟩ := Stream.place_of_mem member
  obtain ⟨line, found, offset, inside, reaches⟩ :=
    Highlight.line_of_piece before issue.token.lexeme behind
  have start : issue.token.start = before.length := by simp [Token.start, place]
  have length := reaches.length_le
  rw [List.length_drop] at length
  rw [← same] at found offset
  rw [← place] at found offset inside reaches length
  refine ⟨rfl, offset.trans start.symm, ?_, ⟨line, found, Nat.le_add_right _ _, ?_, ?_⟩, ?_⟩
  · rw [start, same, List.drop_left]
    exact List.prefix_append _ _
  · simp only [ofIssue, firstLine, Token.column]
    omega
  · simp only [ofIssue, firstLine, Token.column, Nat.add_sub_cancel_left]
    exact (List.prefix_iff_eq_take.mp reaches).symm
  · intro ends shown
    simp [ofIssue, firstLine, lexeme_of_regular member ends shown]

/-- The problems of the grammar, in each way of being parsed: at most one, at a visible token or at
the end, and none only where there is nothing to parse or a document. -/
theorem issues_of_parsed {stream : Stream} {tree : Tree} {issues : List Issue}
    (parsed : Parsed limits stream tree issues)
    (shallow : ∀ issue ∈ issues, issue.problem ≠ .tooDeep) :
    issues.length ≤ 1 ∧
      (issues = [] ↔ stream.visible = [] ∨
        Word cypher (.reference Grammar.start) (visibleKinds stream)) ∧
      ∀ issue ∈ issues,
        (∃ expected, issue.problem = .unexpectedEnd expected ∧ issue.token = stream.last) ∨
          ∃ expected, issue.problem = .unexpected issue.token.text expected ∧
            issue.token ∈ stream.visible := by
  cases parsed with
  | tooDeep => exact absurd rfl (shallow _ (List.mem_singleton_self _))
  | complete _ word => simp [word]
  | unfinished _ _ incomplete =>
    cases empty : stream.visible with
    | nil => simp
    | cons token rest => simp [incomplete]
  | misfit _ stops offending =>
    have member := List.mem_of_getElem? offending
    have some := List.ne_nil_of_mem member
    have incomplete : ¬ Word cypher (.reference Grammar.start) (visibleKinds stream) := by
      intro word
      have all := (viable_iff_of_stopsAt stops).mp (viable_of_word word)
      have inside := (List.getElem?_eq_some_iff.mp offending).1
      rw [List.length_map] at all
      omega
    simp [some, incomplete, member]

/-- A document that is read to its end has no problem. -/
theorem issues_of_document {text : String}
    (ran : ∃ found state,
      derive limits (Document.parse limits text).stream.visible.toArray = .ok (found, state))
    (readOn : (Document.parse limits text).stream.unterminated? = none)
    (document : Word cypher (.reference Grammar.start)
      (visibleKinds (Document.parse limits text).stream)) :
    (Document.parse limits text).issues = [] := by
  have shallow := (not_tooDeep_iff text).mpr ran
  obtain ⟨issues, parsed, all⟩ := parse_parsed limits text
  rw [all] at shallow ⊢
  rw [lexicalIssues, readOn]
  exact (issues_of_parsed parsed fun issue member =>
    shallow issue (List.mem_append_right _ member)).2.1.mpr (.inr document)

/-- Unless a text nests too deeply, nothing is reported exactly where it is read to its end and its
visible tokens are none or a document. Else there is at most one problem of reading, where the text
is not read to its end, and behind it at most one of parsing, where the visible tokens are some and
no document; each is marked on one line, from the first character of its token to the end of the
line or of the token. -/
theorem diagnostics_exact (text : String)
    (shallow : ∀ issue ∈ (Document.parse limits text).issues, issue.problem ≠ .tooDeep) :
    (ofText limits text = [] ↔
      (Document.parse limits text).stream.body.flatMap (·.lexeme) = text.toList ∧
        ((Document.parse limits text).stream.visible = [] ∨
          Word cypher (.reference Grammar.start)
            (visibleKinds (Document.parse limits text).stream))) ∧
    ∃ lexical grammatical : List Issue,
      ofText limits text = (lexical ++ grammatical).map ofIssue ∧
      lexical.length ≤ 1 ∧ grammatical.length ≤ 1 ∧
      (lexical = [] ↔ (Document.parse limits text).stream.body.flatMap (·.lexeme) = text.toList) ∧
      (grammatical = [] ↔ (Document.parse limits text).stream.visible = [] ∨
        Word cypher (.reference Grammar.start) (visibleKinds (Document.parse limits text).stream)) ∧
      (∀ issue ∈ lexical, (∃ what, issue.problem = .unterminated what) ∧
        issue.token = (Document.parse limits text).stream.last) ∧
      (∀ issue ∈ grammatical,
        (∃ expected, issue.problem = .unexpectedEnd expected ∧
          issue.token = (Document.parse limits text).stream.last) ∨
        ∃ expected, issue.problem = .unexpected issue.token.text expected ∧
          issue.token ∈ (Document.parse limits text).stream.visible) ∧
      ∀ issue ∈ lexical ++ grammatical, Marks text.toList issue.token (ofIssue issue) := by
  obtain ⟨issues, parsed, all⟩ := parse_parsed limits text
  rw [all] at shallow
  obtain ⟨one, silent, placed⟩ := issues_of_parsed parsed fun issue member =>
    shallow issue (List.mem_append_right _ member)
  have whole : lexicalIssues (Document.parse limits text).stream = [] ↔
      (Document.parse limits text).stream.body.flatMap (·.lexeme) = text.toList := by
    refine Iff.trans ?_ (Stream.unterminated?_eq_none_iff text.toList)
    rw [lexicalIssues, List.map_eq_nil_iff, Option.toList_eq_nil_iff]
    rfl
  have left (issue) (member : issue ∈ lexicalIssues (Document.parse limits text).stream) :
      (∃ what, issue.problem = .unterminated what) ∧
        issue.token = (Document.parse limits text).stream.last := by
    obtain ⟨what, -, rfl⟩ := List.mem_map.mp member
    exact ⟨⟨what, rfl⟩, rfl⟩
  have same : ofText limits text =
      (lexicalIssues (Document.parse limits text).stream ++ issues).map ofIssue := by
    rw [ofText, all]
  refine ⟨?_, _, issues, same, ?_, one, whole, silent, left, placed, fun issue member => ?_⟩
  · rw [same, List.map_eq_nil_iff, List.append_eq_nil_iff, whole, silent]
  · rw [lexicalIssues, List.length_map]
    cases (Document.parse limits text).stream.unterminated? <;> simp
  · refine marks_ofIssue (List.mem_append.mpr ?_)
    rw [List.mem_singleton]
    rcases List.mem_append.mp member with lexical | grammatical
    · exact .inr (left issue lexical).2
    · rcases placed issue grammatical with ⟨_, -, last⟩ | ⟨_, -, visible⟩
      · exact .inr last
      · exact .inl (List.mem_of_mem_filter visible)

/-- A comment left open behind a whole statement is the one problem of the text. -/
theorem open_comment_reported :
    (∀ issue ∈ (Document.parse ⟨3000, 3000⟩ "RETURN 1\n/* note").issues, issue.problem ≠ .tooDeep) ∧
      ∃ issue, ofText ⟨3000, 3000⟩ "RETURN 1\n/* note" = [ofIssue issue] ∧
        issue.token = (Document.parse ⟨3000, 3000⟩ "RETURN 1\n/* note").stream.last ∧
        Marks "RETURN 1\n/* note".toList issue.token (ofIssue issue) := by
  have kinds : visibleKinds (Document.parse ⟨3000, 3000⟩ "RETURN 1\n/* note").stream =
      [.keyword .RETURN, .integer] := by decide +kernel
  have size : (Document.parse ⟨3000, 3000⟩ "RETURN 1\n/* note").stream.visible.length = 2 := by
    simpa using congrArg List.length kinds
  have shallow := (not_tooDeep_iff "RETURN 1\n/* note").mpr
    (derive_of_short (by rw [List.size_toArray, size]; decide))
  obtain ⟨-, lexical, grammatical, all, one, -, whole, silent, left, -, marks⟩ :=
    diagnostics_exact "RETURN 1\n/* note" shallow
  have opened : lexical ≠ [] := by
    rw [Ne, whole]
    decide +kernel
  have none : grammatical = [] := silent.mpr (.inr (by rw [kinds]; decide +kernel))
  obtain ⟨issue, rfl⟩ := List.length_eq_one_iff.mp
    (Nat.le_antisymm one (List.length_pos_iff.mpr opened))
  subst none
  exact ⟨shallow, issue, all, (left issue (by simp)).2, marks issue (by simp)⟩

end CypherAssist.Diagnostic
