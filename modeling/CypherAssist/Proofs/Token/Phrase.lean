import CypherAssist.Proofs.Token.Lexeme
import CypherAssist.Token.Stream

/-! Keywords with blanks between them. Reading such a phrase gives back the keywords, whatever they
are: no spelling runs into the blank behind it, and no spelling is that of another keyword. -/
namespace CypherAssist.Token
open Text

namespace Stream

/-- Tokens in front of what is read behind them. -/
def prepend (front : List Token) (following : Stream) : Stream :=
  { following with body := front ++ following.body }

/-- Reading takes the first lexeme and goes on behind it. -/
theorem readFrom_cons {c : Char} {rest : List Char} {kind : Kind} {length : Nat}
    (starts : Lexeme.next (c :: rest) = .token kind length) (cursor : Cursor) (index : Nat) :
    readFrom cursor index (c :: rest) =
      prepend [⟨kind, c :: rest.take (length - 1), cursor, index⟩]
        (readFrom (cursor.after (c :: rest.take (length - 1))) (index + 1)
          (rest.drop (length - 1))) := by
  rw [readFrom]
  split
  · rename_i opens
    rw [starts] at opens
    cases opens
  · rename_i other
    rw [starts] at other
    cases other
    rfl

theorem readFrom_append {kind : Kind} {lexeme rest : List Char} (some : lexeme ≠ [])
    (starts : Lexeme.next (lexeme ++ rest) = .token kind lexeme.length) (cursor : Cursor)
    (index : Nat) :
    readFrom cursor index (lexeme ++ rest) =
      prepend [⟨kind, lexeme, cursor, index⟩]
        (readFrom (cursor.after lexeme) (index + 1) rest) := by
  cases lexeme with
  | nil => exact absurd rfl some
  | cons c tail =>
    rw [List.cons_append] at starts ⊢
    simp [readFrom_cons starts]

end Stream

namespace Keyword

/-- A spelling is a word, and it is read as its own keyword. -/
theorem spelling_word (keyword : Keyword) :
    ∃ c word, keyword.spelling.toList = c :: word ∧ isNameStart c ∧ (∀ d ∈ word, isWordChar d) ∧
      Lexeme.wordKind (c :: word) = .keyword keyword := by
  have checked : ∀ other ∈ all, other.spelling.toList.head?.any isNameStart ∧
      other.spelling.toList.tail.all isWordChar ∧
      Lexeme.wordKind other.spelling.toList = .keyword other := by decide +kernel
  obtain ⟨starts, inside, same⟩ := checked keyword (mem_all keyword)
  cases shape : keyword.spelling.toList with
  | nil => simp [shape] at starts
  | cons c word =>
    rw [shape] at starts inside same
    exact ⟨c, word, rfl, by simpa using starts, by simpa using inside, same⟩

/-- The spellings of keywords with one blank between any two. -/
def phrase (keywords : List Keyword) : List Char :=
  [' '].intercalate (keywords.map (·.spelling.toList))

/-- A spelling is read as its keyword, unless more characters of a word stand behind it. -/
theorem next_spelling (keyword : Keyword) {rest : List Char}
    (stops : ∀ c ∈ rest.head?, isWordChar c = false) :
    Lexeme.next (keyword.spelling.toList ++ rest) =
      .token (.keyword keyword) keyword.spelling.toList.length := by
  obtain ⟨c, word, same, starts, inside, kind⟩ := spelling_word keyword
  rw [same, List.cons_append, Lexeme.next_word starts inside stops, kind, List.length_cons]

theorem spelling_ne_nil (keyword : Keyword) : keyword.spelling.toList ≠ [] := by
  obtain ⟨c, word, same, -⟩ := spelling_word keyword
  simp [same]

/-- A phrase starts with a letter. -/
theorem phrase_cons (keyword : Keyword) (more : List Keyword) :
    ∃ c rest, phrase (keyword :: more) = c :: rest ∧ isNameStart c := by
  obtain ⟨c, word, same, starts, -⟩ := spelling_word keyword
  cases more with
  | nil => exact ⟨c, word, by simp [phrase, same, List.intercalate], starts⟩
  | cons next others =>
    refine ⟨c, word ++ [' '] ++ phrase (next :: others), ?_, starts⟩
    rw [phrase, List.map_cons, List.map_cons, List.intercalate_cons_cons, same]
    rfl

/-- A phrase is read to its end, as its keywords and the blanks between them. -/
theorem readFrom_phrase (keywords : List Keyword) (cursor : Cursor) (index : Nat) :
    (((Stream.readFrom cursor index (phrase keywords)).body.filter
        fun token => token.kind ≠ .blank).map (·.kind) = keywords.map .keyword) ∧
      (Stream.readFrom cursor index (phrase keywords)).last.lexeme = [] ∧
      (Stream.readFrom cursor index (phrase keywords)).unterminated? = none := by
  induction keywords generalizing cursor index with
  | nil => simp [phrase, Stream.readFrom]
  | cons keyword more ih =>
    cases more with
    | nil =>
      have alone : phrase [keyword] = keyword.spelling.toList ++ [] := by
        simp [phrase, List.intercalate]
      rw [alone, Stream.readFrom_append (spelling_ne_nil keyword) (next_spelling keyword (by simp))]
      simp [Stream.prepend, Stream.readFrom]
    | cons following others =>
      have split : phrase (keyword :: following :: others) =
          keyword.spelling.toList ++ ([' '] ++ phrase (following :: others)) := by
        simp [phrase, List.intercalate_cons_cons]
      have gap : ∀ c ∈ ([' '] ++ phrase (following :: others)).head?, isWordChar c = false := by
        rintro _ ⟨⟩
        decide
      have stops : ∀ c ∈ (phrase (following :: others)).head?, isBlank c = false := by
        obtain ⟨c, rest, same, starts⟩ := phrase_cons following others
        rw [same]
        rintro _ ⟨⟩
        exact isBlank_of_isWordChar (isWordChar_of_isNameStart starts)
      have blank : Lexeme.next ([' '] ++ phrase (following :: others)) = .token .blank 1 :=
        Lexeme.next_blanks (by simp) (by simp; decide) stops
      rw [split, Stream.readFrom_append (spelling_ne_nil keyword) (next_spelling keyword gap),
        Stream.readFrom_append (by simp) blank]
      obtain ⟨kinds, regular⟩ := ih ((cursor.after keyword.spelling.toList).after [' '])
        (index + 1 + 1)
      refine ⟨?_, regular⟩
      simpa [Stream.prepend] using kinds

end Keyword

end CypherAssist.Token
