import CypherAssist.Proofs.Token.Relocation
import CypherAssist.Proofs.Token.Typing

/-! Texts joined by a semicolon and a newline. No lexeme but a comment to the end of the line goes
on with a semicolon, and a newline is blank; so both texts are read as each of them alone, the
second one so many lines further down. -/
namespace CypherAssist.Token
open Text

namespace Lexeme

variable {accepts : Char → Bool} {text : List Char} {kind : Kind} {length : Nat}

/-! ## A semicolon behind a text -/

theorem run_semicolon (refused : accepts ';' = false) (text : List Char) :
    run accepts (text ++ [';']) = run accepts text :=
  run_append_of_refused (by simpa using refused)

theorem run?_semicolon (refused : accepts ';' = false) (text : List Char) :
    run? accepts (text ++ [';']) = run? accepts text := by
  rw [run?, run?, run_semicolon refused]

theorem exponent?_semicolon (text : List Char) : exponent? (text ++ [';']) = exponent? text := by
  cases text with
  | nil => rfl
  | cons c rest =>
    have same : sign (rest ++ [';']) = sign rest := by
      cases rest with
      | nil => rfl
      | cons d rest => exact sign_append (List.cons_ne_nil _ _) _
    rw [List.cons_append, exponent?, exponent?, same,
      List.drop_append_of_le_length (sign_le rest), run?_semicolon (by decide)]

theorem decimal?_semicolon (text : List Char) : decimal? (text ++ [';']) = decimal? text := by
  have behind {text : List Char} {length : Nat} (found : run? isDecimalDigit text = some length) :
      (text ++ [';']).drop length = text.drop length ++ [';'] :=
    List.drop_append_of_le_length (run_of_run? found ▸ run_le _ _)
  rw [decimal?, decimal?, run?_semicolon (by decide)]
  cases whole : run? isDecimalDigit text with
  | none => rfl
  | some length =>
    simp only [Option.bind_eq_bind, Option.bind_some, behind whole]
    generalize text.drop length = tail
    cases tail with
    | nil => rfl
    | cons c rest =>
      have powers := exponent?_semicolon (c :: rest)
      by_cases point : c = '.'
      · subst point
        have digits := @run?_semicolon isDecimalDigit (by decide) rest
        simp only [List.cons_append, digits]
        cases fraction : run? isDecimalDigit rest with
        | none => rfl
        | some digits => simp only [Option.bind_some, behind fraction, exponent?_semicolon]
      · simp only [List.cons_append] at powers ⊢
        simp [point, powers]

theorem words_semicolon (some : text ≠ []) :
    ((word? (text ++ [';'])).map fun length => (wordKind ((text ++ [';']).take length), length)) =
      (word? text).map fun length => (wordKind (text.take length), length) := by
  have same : word? (text ++ [';']) = word? text := by
    cases text with
    | nil => exact absurd rfl some
    | cons c rest => rw [List.cons_append, word?, word?, run_semicolon (by decide)]
  rw [same]
  cases found : word? text with
  | none => rfl
  | some length => simp [List.take_append_of_le_length (length_le_of_word? found)]

theorem symbol?_semicolon (some : text ≠ []) : symbol? (text ++ [';']) = symbol? text := by
  have begun := List.length_pos_iff.mpr some
  refine symbol?_append fun symbol starts => Nat.le_of_not_lt fun long => ?_
  have all := starts.eq_of_length_le (by
    rw [List.length_append, List.length_singleton]
    exact long)
  have one := @length_of_semicolon_mem symbol (by simp [all])
  omega

theorem opened?_semicolon (some : text ≠ []) : opened? (text ++ [';']) = opened? text := by
  match text with
  | [] => exact absurd rfl some
  | [c] =>
    unfold opened?
    split <;> simp_all
  | c :: d :: rest =>
    unfold opened?
    split <;> simp_all

theorem lineComment?_semicolon (some : text ≠ []) (shut : lineComment? text ≠ .some text.length) :
    lineComment? (text ++ [';']) = lineComment? text := by
  match text with
  | [] => exact absurd rfl some
  | [c] => simp [lineComment?]
  | c :: d :: rest => exact lineComment?_append shut _

/-- What a text starts with, it starts with also in front of a semicolon, unless it is a comment
that runs to its end; but what is left must not open a name that nothing closes. -/
theorem next_semicolon_behind (some : text ≠ []) (starts : next text = .token kind length)
    (shut : lineComment? text ≠ .some text.length)
    (onward : ∀ what, next (text.drop length) ≠ .unterminated what) :
    next (text ++ [';']) = .token kind length := by
  have opening := opened?_semicolon some
  cases opens : opened? text with
  | none =>
    obtain ⟨block, single, double, quoted⟩ := constructs_of_opened? opens
    obtain ⟨blockToo, singleToo, doubleToo, quotedToo⟩ :=
      constructs_of_opened? (opening.trans opens)
    have blank : blank? (text ++ [';']) = blank? text := run?_semicolon (by decide) text
    have integer : integer? (text ++ [';']) = integer? text := run?_semicolon (by decide) text
    have complete : complete? (text ++ [';']) = complete? text := by
      simp only [complete?, blank, lineComment?_semicolon some shut, block, blockToo,
        decimal?_semicolon, integer, single, singleToo, double, doubleToo, quoted, quotedToo,
        words_semicolon some]
    rw [next, complete, opening, symbol?_semicolon some]
    exact starts
  | some what =>
    cases found : complete? text with
    | none => simp [next, found, opens] at starts
    | some lexeme =>
      simp only [next, found, Lexeme.token.injEq] at starts
      obtain ⟨rfl, rfl⟩ := starts
      rw [next, complete?_append_of_opened opens found (fun _ => by simp) onward]

end Lexeme

namespace Stream
open Lexeme

variable {cursor : Cursor} {index : Nat} {text first second : List Char}

/-- The text is read to its end, and a semicolon behind it is a token of its own. -/
structure Closable (stream : Stream) : Prop where
  whole : stream.unterminated? = none
  apart : stream.body.getLast?.map (·.kind) ≠ some .lineComment

theorem closable_behind {token : Token} {following : Stream}
    (closable : Closable (prepend [token] following)) : Closable following where
  whole := closable.whole
  apart last := by
    refine closable.apart ?_
    obtain ⟨found, ends, kind⟩ := Option.map_eq_some_iff.mp last
    simp [prepend, List.getLast?_cons, ends, kind]

/-- Behind a text a semicolon is read, and the text is read as before. -/
theorem readFrom_semicolon_behind (cursor : Cursor) (index : Nat) (text : List Char)
    (closable : Closable (readFrom cursor index text)) :
    readFrom cursor index (text ++ [';']) =
      prepend (readFrom cursor index text).body
        (readFrom (cursor.after text) (index + (readFrom cursor index text).body.length)
          [';']) := by
  induction cursor, index, text using readFrom_induction with
  | nothing => rfl
  | opened => cases closable.whole
  | token cursor index kind lexeme rest some starts ih =>
    have behind := closable_behind closable
    have begun : lexeme ++ rest ≠ [] := by simp [some]
    have shut : lineComment? (lexeme ++ rest) ≠ .some (lexeme ++ rest).length := by
      intro all
      have comment := complete?_of_lineComment all
      rw [next, comment] at starts
      obtain ⟨rfl, length⟩ := Lexeme.token.inj starts
      have nothing : rest = [] := by simpa using length
      subst nothing
      exact closable.apart (by simp [prepend, readFrom])
    have onward (what) : next ((lexeme ++ rest).drop lexeme.length) ≠ .unterminated what := by
      rw [List.drop_left]
      exact next_of_whole behind.whole what
    have same := next_semicolon_behind begun starts shut onward
    rw [List.append_assoc] at same ⊢
    rw [readFrom_append some same, ih behind]
    simp [prepend, Nat.add_assoc, Nat.add_comm 1]

/-- The tokens of a text that are not blank, in order. -/
def shown (stream : Stream) : List Token :=
  stream.body.filter fun token => token.kind ≠ .blank

theorem shown_prepend (front : List Token) (following : Stream) :
    (prepend front following).shown =
      (front.filter fun token => token.kind ≠ .blank) ++ following.shown := by
  simp [shown, prepend]

/-- Two streams that differ in blanks alone. -/
structure SameShown (one two : Stream) : Prop where
  shown : one.shown = two.shown
  last : one.last = two.last
  unterminated : one.unterminated? = two.unterminated?

theorem sameShown_prepend {one two : Stream} (front : List Token) (same : SameShown one two) :
    SameShown (prepend front one) (prepend front two) where
  shown := by rw [shown_prepend, shown_prepend, same.shown]
  last := same.last
  unterminated := same.unterminated

/-- What is told without the blanks is the same of both. -/
theorem filter_of_sameShown {one two : Stream} (same : SameShown one two) (keeps : Token → Bool)
    (blank : ∀ token : Token, token.kind = .blank → keeps token = false) :
    one.body.filter keeps = two.body.filter keeps ∧
      one.toList.filter keeps = two.toList.filter keeps := by
  have told (stream : Stream) : stream.body.filter keeps = stream.shown.filter keeps := by
    rw [shown, List.filter_filter]
    refine List.filter_congr fun token _ => ?_
    by_cases plain : token.kind = .blank
    · simp [blank token plain]
    · simp [plain]
  have body : one.body.filter keeps = two.body.filter keeps := by rw [told, told, same.shown]
  exact ⟨body, by rw [toList, toList, List.filter_append, List.filter_append, body, same.last]⟩

theorem visible_of_sameShown {one two : Stream} (same : SameShown one two) :
    one.visible = two.visible :=
  (filter_of_sameShown same _ fun token plain => by simp [Token.isHidden, plain, Kind.isHidden]).1

theorem sameShown_blanks {blanks rest : List Char} (some : blanks ≠ [])
    (inside : ∀ d ∈ blanks, isBlank d) (stops : ∀ d ∈ rest.head?, isBlank d = false)
    (cursor : Cursor) (index : Nat) :
    SameShown (readFrom cursor index (blanks ++ rest))
      (readFrom (cursor.after blanks) (index + 1) rest) := by
  rw [readFrom_append some (next_blanks some inside stops)]
  exact ⟨shown_prepend _ _, rfl, rfl⟩

/-- A newline in front of a text only adds blanks. -/
theorem sameShown_newline (cursor : Cursor) (index : Nat) (text : List Char) :
    ∃ number, SameShown (readFrom cursor index ('\n' :: text))
      (readFrom (cursor.after ['\n']) number text) := by
  obtain ⟨blanks, rest, rfl, inside, stops⟩ : ∃ blanks rest, text = blanks ++ rest ∧
      (∀ d ∈ blanks, isBlank d) ∧ ∀ d ∈ rest.head?, isBlank d = false :=
    ⟨text.takeWhile isBlank, text.dropWhile isBlank, List.takeWhile_append_dropWhile.symm,
      fun d member => List.all_eq_true.mp List.all_takeWhile d member, fun d first => by
        have refused := List.head?_dropWhile_not isBlank text
        rw [Option.mem_def.mp first] at refused
        simpa using refused⟩
  have newline : ∀ d ∈ '\n' :: blanks, isBlank d :=
    List.forall_mem_cons.mpr ⟨by decide, inside⟩
  have here := sameShown_blanks (List.cons_ne_nil _ _) newline stops cursor index
  cases blanks with
  | nil => exact ⟨index + 1, here⟩
  | cons c blanks =>
    have there := sameShown_blanks (List.cons_ne_nil c blanks) inside stops
      (cursor.after ['\n']) index
    exact ⟨index, here.shown.trans there.shown.symm, here.last.trans there.last.symm,
      here.unterminated.trans there.unterminated.symm⟩

/-- A text and the semicolon behind it. -/
theorem ofText_semicolon_behind (closable : Closable (ofText text)) :
    ∃ mark, mark.kind = .symbol .semicolon ∧
      (ofText (text ++ [';'])).body = (ofText text).body ++ [mark] ∧
      (ofText (text ++ [';'])).unterminated? = none := by
  have closed := readFrom_semicolon_behind {} 0 text closable
  rw [readFrom_cons (next_semicolon []), List.drop_nil, readFrom] at closed
  exact ⟨_, rfl, congrArg body closed, congrArg unterminated? closed⟩

/-- Two texts joined by a semicolon and a newline have the tokens of both and the semicolon; those
of the second stand so many lines further down, in their columns. -/
theorem ofText_joined (closable : Closable (ofText first)) (second : List Char) :
    ∃ mark number, mark.kind = .symbol .semicolon ∧
      SameShown (ofText (first ++ [';', '\n'] ++ second))
        (prepend ((ofText first).body ++ [mark])
          ((ofText second).relocate (Cursor.after {} (first ++ [';', '\n'])) number)) := by
  obtain ⟨mark, semicolon, closed, whole⟩ := ofText_semicolon_behind closable
  have closing : (ofText (first ++ [';'])).body.getLast?.map (·.kind) =
      some (.symbol .semicolon) := by
    rw [closed, List.getLast?_concat, Option.map_some, semicolon]
  have onward := readFrom_append_of_semicolon whole closing ('\n' :: second)
  obtain ⟨number, same⟩ := sameShown_newline (Cursor.after {} (first ++ [';']))
    (0 + (ofText (first ++ [';'])).body.length) second
  have split : first ++ [';', '\n'] ++ second = first ++ [';'] ++ '\n' :: second := by simp
  have place : (Cursor.after {} (first ++ [';'])).after ['\n'] =
      (Cursor.after {} (first ++ [';', '\n'])).behind {} := by
    rw [← Cursor.after_append, List.append_assoc]
    rfl
  rw [place, ← Nat.add_zero number, readFrom_relocate _ _ (Nat.le_refl 1)] at same
  refine ⟨mark, number, semicolon, ?_⟩
  rw [split, ofText, onward, ← closed]
  exact sameShown_prepend _ same

end Stream

end CypherAssist.Token
