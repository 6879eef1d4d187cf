import CypherAssist.Proofs.Token.Parting
import CypherAssist.Proofs.Token.Phrase
import CypherAssist.Proofs.Token.Place

/-! Reading starts anew behind a semicolon. No lexeme runs over one from the left but a comment, a
string or a name between backticks, and those are closed in a text that is read to its end; so what
comes behind such a text changes nothing in front of it. -/
namespace CypherAssist.Token
open Text

/-- The text ends with a semicolon. -/
def Sealed (text : List Char) : Prop := ∃ front, text = front ++ [';']

namespace Lexeme

variable {text rest more : List Char} {c : Char}

theorem not_sealed_nil : ¬ Sealed [] := by
  rintro ⟨front, same⟩
  simp at same

theorem ne_nil_of_sealed (sealed : Sealed text) : text ≠ [] := by
  rintro rfl
  exact not_sealed_nil sealed

theorem sealed_tail (sealed : Sealed (c :: rest)) (other : c ≠ ';') : Sealed rest := by
  obtain ⟨front, same⟩ := sealed
  cases front with
  | nil =>
    cases same
    exact absurd rfl other
  | cons _ front =>
    cases same
    exact ⟨front, rfl⟩

theorem mem_of_sealed (sealed : Sealed text) : ';' ∈ text := by
  obtain ⟨front, rfl⟩ := sealed
  simp

/-- A semicolon parts a text from whatever stands behind it. -/
theorem parted_of_sealed (sealed : Sealed text) (more : List Char) : Parted text more := by
  have some := ne_nil_of_sealed sealed
  obtain ⟨front, rfl⟩ := sealed
  have last : (front ++ [';']).getLast? = .some ';' := List.getLast?_concat
  refine ⟨some, fun c found => ?_, fun sign found among => ?_⟩
  · rw [last] at found
    cases found
    decide
  · rw [last] at found
    cases found
    simp at among

/-! ## Readers that never cross a semicolon -/

/-- No symbol but the semicolon itself has a semicolon in it. -/
theorem length_of_semicolon_mem {symbol : Symbol} (inside : ';' ∈ symbol.spelling.toList) :
    symbol.spelling.toList.length = 1 := by
  have single : ∀ symbol ∈ Symbol.all, ';' ∈ symbol.spelling.toList →
      symbol.spelling.toList.length = 1 := by decide
  exact single symbol (Symbol.mem_all symbol) inside

theorem symbol?_append_of_sealed (sealed : Sealed text) (more : List Char) :
    symbol? (text ++ more) = symbol? text := by
  refine symbol?_append fun symbol starts => Nat.le_of_not_lt fun long => ?_
  have whole := List.prefix_of_prefix_length_le (List.prefix_append _ _) starts (Nat.le_of_lt long)
  have one := length_of_semicolon_mem (whole.subset (mem_of_sealed sealed))
  have some := List.length_pos_iff.mpr (ne_nil_of_sealed sealed)
  omega

theorem opened?_append (sealed : Sealed text) (more : List Char) :
    opened? (text ++ more) = opened? text := by
  cases text with
  | nil =>
    exact absurd sealed not_sealed_nil
  | cons c rest =>
    cases rest with
    | nil =>
      have only : c = ';' := Decidable.byContradiction fun other =>
        not_sealed_nil (sealed_tail sealed other)
      subst only
      rfl
    | cons d rest =>
      unfold opened?
      split <;> simp_all

/-! ## Readers of constructs -/

theorem commentEnd?_append {length : Nat} (found : commentEnd? text = some length)
    (more : List Char) : commentEnd? (text ++ more) = some length := by
  fun_induction commentEnd? text generalizing length with
  | case1 => cases found
  | case2 => simpa [commentEnd?] using found
  | case3 c rest other ih =>
    obtain ⟨inner, ends, rfl⟩ := Option.map_eq_some_iff.mp found
    have behind := ih ends
    cases rest with
    | nil => cases ends
    | cons d tail =>
      rw [List.cons_append, commentEnd?, behind]
      · rfl
      · simpa using other

theorem stringEnd?_append {quote : Char} {length : Nat} (plain : quote ≠ '\\')
    (found : stringEnd? quote text = some length) (more : List Char) :
    stringEnd? quote (text ++ more) = some length := by
  fun_induction stringEnd? quote text generalizing length with
  | case1 | case4 => cases found
  | case2 c rest ih =>
    obtain ⟨inner, ends, rfl⟩ := Option.map_eq_some_iff.mp found
    simp [stringEnd?, ih ends]
  | case3 rest =>
    cases found
    simp [stringEnd?, plain]
  | case5 c rest _ other slash ih =>
    obtain ⟨inner, ends, rfl⟩ := Option.map_eq_some_iff.mp found
    simp [stringEnd?, other, slash, ih ends]

/-- A name closes where it did, unless it was the missing end that closed it early. -/
theorem nameEnd?_append {length : Nat} (found : nameEnd? text = some length)
    (shut : length = text.length → more.head? ≠ some '`')
    (onward : ∀ tail, text.drop length = '`' :: tail → nameEnd? tail ≠ none) :
    nameEnd? (text ++ more) = some length := by
  fun_induction nameEnd? text generalizing length with
  | case1 => cases found
  | case2 rest distance closed ih =>
    cases found
    have behind := ih closed (by simpa using shut) (by simpa using onward)
    simp [nameEnd?, behind]
  | case3 rest opened =>
    -- The second backtick would open a name that nothing closes.
    cases found
    exact absurd opened (onward rest rfl)
  | case4 rest alone =>
    cases found
    cases rest with
    | nil =>
      cases more with
      | nil => rfl
      | cons c tail =>
        have other : c ≠ '`' := fun same => shut rfl (congrArg some same)
        simp [nameEnd?, other]
    | cons c tail =>
      have other : c ≠ '`' := fun same => alone tail (same ▸ rfl)
      simp [nameEnd?, other]
  | case5 c rest _ other ih =>
    obtain ⟨inner, ends, rfl⟩ := Option.map_eq_some_iff.mp found
    have behind := ih ends (by simpa using shut) (by simpa using onward)
    have plain : c ≠ '`' := other
    simp [nameEnd?, plain, behind]

/-- What starts neither a blank, a number nor a word starts a construct or nothing. -/
theorem complete?_of_mark (blank : isBlank c = false) (digit : isDecimalDigit c = false)
    (name : isNameStart c = false) (rest : List Char) :
    complete? (c :: rest) =
      ((lineComment? (c :: rest)).map (Kind.lineComment, ·) <|>
        (blockComment? (c :: rest)).map (Kind.blockComment, ·) <|>
        (string? '\'' (c :: rest)).map (Kind.singleQuoted, ·) <|>
        (string? '"' (c :: rest)).map (Kind.doubleQuoted, ·) <|>
        (quotedName? (c :: rest)).map (Kind.quotedName, ·)) := by
  have noBlank : blank? (c :: rest) = none := run?_of_head blank rest
  have noInteger : integer? (c :: rest) = none := run?_of_head digit rest
  have noDecimal : decimal? (c :: rest) = none := by
    rw [decimal?, run?_of_head digit]
    rfl
  simp [complete?, noBlank, noInteger, noDecimal, word?, name]

theorem complete?_blockComment (rest : List Char) : complete? ('/' :: '*' :: rest) =
    (commentEnd? rest).map fun length => (Kind.blockComment, length + 2) := by
  rw [complete?_of_mark (by decide) (by decide) (by decide)]
  cases ends : commentEnd? rest <;> simp [lineComment?, blockComment?, string?, quotedName?, ends]

theorem complete?_single (rest : List Char) : complete? ('\'' :: rest) =
    (stringEnd? '\'' rest).map fun length => (Kind.singleQuoted, length + 1) := by
  rw [complete?_of_mark (by decide) (by decide) (by decide)]
  cases ends : stringEnd? '\'' rest <;>
    simp [lineComment?, blockComment?, string?, quotedName?, ends]

theorem complete?_double (rest : List Char) : complete? ('"' :: rest) =
    (stringEnd? '"' rest).map fun length => (Kind.doubleQuoted, length + 1) := by
  rw [complete?_of_mark (by decide) (by decide) (by decide)]
  cases ends : stringEnd? '"' rest <;>
    simp [lineComment?, blockComment?, string?, quotedName?, ends]

theorem complete?_quoted (rest : List Char) : complete? ('`' :: rest) =
    (nameEnd? rest).map fun length => (Kind.quotedName, length + 1) := by
  rw [complete?_of_mark (by decide) (by decide) (by decide)]
  cases ends : nameEnd? rest <;> simp [lineComment?, blockComment?, string?, quotedName?, ends]

theorem complete?_of_lineComment {length : Nat} (found : lineComment? text = some length) :
    complete? text = some (.lineComment, length) := by
  unfold lineComment? at found
  split at found
  · rw [complete?_of_mark (by decide) (by decide) (by decide), lineComment?]
    cases found
    rfl
  · cases found

/-! ## The lexeme at the start -/

theorem constructs_of_opened? (opens : opened? text = none) :
    blockComment? text = none ∧ string? '\'' text = none ∧ string? '"' text = none ∧
      quotedName? text = none := by
  refine ⟨?_, ?_, ?_, ?_⟩
  · unfold blockComment?
    split
    · cases opens
    · rfl
  · unfold string?
    split
    · rfl
    · split
      · rename_i same
        subst same
        cases opens
      · rfl
  · unfold string?
    split
    · rfl
    · split
      · rename_i same
        subst same
        cases opens
      · rfl
  · unfold quotedName?
    split
    · cases opens
    · rfl

theorem lineComment?_append_of_sealed (sealed : Sealed text)
    (line : ∀ length, lineComment? text = some length → length < text.length) (more : List Char) :
    lineComment? (text ++ more) = lineComment? text := by
  match text with
  | [] => exact absurd sealed not_sealed_nil
  | [c] =>
    have only : c = ';' := Decidable.byContradiction fun other =>
      not_sealed_nil (sealed_tail sealed other)
    subst only
    rfl
  | c :: d :: rest => exact lineComment?_append (fun all => Nat.lt_irrefl _ (line _ all)) more

/-- Where nothing is opened, only a comment to the end of the line could run on. -/
theorem complete?_append (sealed : Sealed text) (opens : opened? text = none)
    (line : ∀ length, lineComment? text = some length → length < text.length) (more : List Char) :
    complete? (text ++ more) = complete? text := by
  obtain ⟨block, single, double, quoted⟩ := constructs_of_opened? opens
  obtain ⟨blockToo, singleToo, doubleToo, quotedToo⟩ :=
    constructs_of_opened? ((opened?_append sealed more).trans opens)
  have parted := parted_of_sealed sealed more
  have blank : blank? (text ++ more) = blank? text :=
    run?_append_of_mem (mem_of_sealed sealed) (by decide) more
  simp only [complete?, blank, lineComment?_append_of_sealed sealed line, block, blockToo,
    decimal?_append parted, integer?_append parted, single, singleToo, double, doubleToo, quoted,
    quotedToo, words_append parted]

/-- What is opened and closed is closed there, whatever comes behind. -/
theorem complete?_append_of_opened {kind : Kind} {length : Nat} {what : Unterminated}
    (opens : opened? text = some what) (closed : complete? text = some (kind, length))
    (shut : length = text.length → more.head? ≠ some '`')
    (onward : ∀ what, next (text.drop length) ≠ .unterminated what) :
    complete? (text ++ more) = some (kind, length) := by
  unfold opened? at opens
  split at opens
  · rw [complete?_blockComment, Option.map_eq_some_iff] at closed
    obtain ⟨inner, ends, same⟩ := closed
    rw [List.cons_append, List.cons_append, complete?_blockComment, commentEnd?_append ends]
    exact congrArg some same
  · rw [complete?_single, Option.map_eq_some_iff] at closed
    obtain ⟨inner, ends, same⟩ := closed
    rw [List.cons_append, complete?_single, stringEnd?_append (by decide) ends]
    exact congrArg some same
  · rw [complete?_double, Option.map_eq_some_iff] at closed
    obtain ⟨inner, ends, same⟩ := closed
    rw [List.cons_append, complete?_double, stringEnd?_append (by decide) ends]
    exact congrArg some same
  · rename_i rest
    rw [complete?_quoted, Option.map_eq_some_iff] at closed
    obtain ⟨inner, ends, same⟩ := closed
    obtain ⟨rfl, rfl⟩ := Prod.mk.inj same
    have further (tail) (left : rest.drop inner = '`' :: tail) : nameEnd? tail ≠ none := by
      intro lost
      refine onward .quotedName ?_
      rw [List.drop_succ_cons, left, next, complete?_quoted, lost]
      rfl
    rw [List.cons_append, complete?_quoted,
      nameEnd?_append ends (by simpa using shut) further]
    rfl
  · cases opens

/-- A lexeme with text behind it, up to a semicolon, is the same whatever comes behind that; but
what is left must not open a name that nothing closes. -/
theorem next_append {kind : Kind} {length : Nat} (sealed : Sealed text)
    (starts : next text = .token kind length) (inside : length < text.length)
    (onward : ∀ what, next (text.drop length) ≠ .unterminated what) (more : List Char) :
    next (text ++ more) = .token kind length := by
  cases opens : opened? text with
  | none =>
    have line (span) (found : lineComment? text = some span) : span < text.length := by
      simp only [next, complete?_of_lineComment found, Lexeme.token.injEq] at starts
      rwa [starts.2]
    rw [next, complete?_append sealed opens line, opened?_append sealed,
      symbol?_append_of_sealed sealed]
    exact starts
  | some what =>
    cases found : complete? text with
    | none =>
      simp [next, found, opens] at starts
    | some lexeme =>
      simp only [next, found, Lexeme.token.injEq] at starts
      obtain ⟨rfl, rfl⟩ := starts
      rw [next, complete?_append_of_opened opens found
        (fun all => absurd all (Nat.ne_of_lt inside)) onward]

theorem next_semicolon (more : List Char) : next (';' :: more) = .token (.symbol .semicolon) 1 := by
  have single : Sealed [';'] := ⟨[], rfl⟩
  have same := symbol?_append_of_sealed single more
  have found : symbol? [';'] = some .semicolon := by decide
  have opens : opened? (';' :: more) = none := rfl
  obtain ⟨block, quote, double, quoted⟩ := constructs_of_opened? opens
  rw [List.singleton_append, found] at same
  rw [next, complete?_of_mark (by decide) (by decide) (by decide), block, quote, double, quoted,
    opens, same]
  rfl

end Lexeme

namespace Stream
open Lexeme

variable {cursor : Cursor} {index : Nat} {text : List Char}

/-! ## Streams -/

theorem symbol?_of_next {sign : Symbol} {length : Nat}
    (starts : next text = .token (.symbol sign) length) :
    symbol? text = some sign ∧ length = sign.spelling.toList.length := by
  have word (chars : List Char) : wordKind chars ≠ .symbol sign := by
    unfold wordKind
    split <;> simp
  unfold next at starts
  split at starts
  · rename_i complete
    cases starts
    simp [complete?, Option.or_eq_some_iff, word] at complete
  · split at starts
    · cases starts
    · split at starts
      · rename_i found
        cases starts
        exact ⟨found, rfl⟩
      · cases starts

/-- A symbol is spelled as it is. -/
theorem lexeme_of_symbol {token : Token} {sign : Symbol}
    (member : token ∈ (readFrom cursor index text).body) (same : token.kind = .symbol sign) :
    token.lexeme = sign.spelling.toList := by
  fun_induction readFrom cursor index text with
  | case1 | case2 => cases member
  | case3 cursor index c rest kind length starts lexeme following ih =>
    rcases List.mem_cons.mp member with rfl | later
    · cases same
      obtain ⟨found, rfl⟩ := symbol?_of_next starts
      rw [symbol?] at found
      have fits := List.find?_some found
      have begins := List.prefix_iff_eq_take.mp (List.isPrefixOf_iff_prefix.mp fits)
      obtain ⟨d, tail, spelled⟩ := List.exists_cons_of_ne_nil (Symbol.spelling_ne_nil sign)
      rw [begins, spelled, List.length_cons, List.take_succ_cons]
      simp [lexeme, spelled]
    · exact ih later

/-- A text read to its end whose last token is a semicolon ends with one. -/
theorem sealed_of_semicolon (whole : (readFrom cursor index text).unterminated? = none)
    (closing : (readFrom cursor index text).body.getLast?.map (·.kind) =
      some (.symbol .semicolon)) : Sealed text := by
  obtain ⟨last, ends, kind⟩ := Option.map_eq_some_iff.mp closing
  obtain ⟨front, body⟩ := List.getLast?_eq_some_iff.mp ends
  have lexeme := lexeme_of_symbol (List.mem_of_getLast? ends) kind
  have all := lexemes_readFrom cursor index text
  rw [(unterminated?_readFrom cursor index text).mp whole, body, List.append_nil,
    List.flatMap_append, List.flatMap_singleton, lexeme] at all
  exact ⟨_, all.symm⟩

theorem next_of_whole (whole : (readFrom cursor index text).unterminated? = none)
    (what : Unterminated) : next text ≠ .unterminated what := by
  intro opens
  cases text with
  | nil => cases opens
  | cons c rest =>
    rw [readFrom] at whole
    split at whole
    · cases whole
    · rename_i other
      rw [opens] at other
      cases other

/-- A semicolon with nothing behind it is the whole of the text. -/
private theorem eq_of_single {c : Char} {rest : List Char} {length : Nat}
    (starts : next (c :: rest) = .token (.symbol .semicolon) length)
    (nothing : rest.drop (length - 1) = []) (sealed : Sealed (c :: rest)) :
    c = ';' ∧ rest = [] := by
  have single : length = 1 := (symbol?_of_next starts).2
  subst single
  have only : rest = [] := nothing
  subst only
  exact ⟨Decidable.byContradiction fun other => not_sealed_nil (sealed_tail sealed other), rfl⟩

/-- What closes a text closes the part of it behind the first token. -/
private theorem closing_of_prepend {token : Token} {kind : Kind} (begun : text ≠ [])
    (whole : (readFrom cursor index text).unterminated? = none)
    (closing : (prepend [token] (readFrom cursor index text)).body.getLast?.map (·.kind) =
      some kind) :
    (readFrom cursor index text).body.getLast?.map (·.kind) = some kind := by
  have tokens : (readFrom cursor index text).body ≠ [] := by
    intro none
    have left := lexemes_readFrom cursor index text
    rw [none, (unterminated?_readFrom ..).mp whole] at left
    exact begun left.symm
  obtain ⟨front, last, ends⟩ := (List.eq_nil_or_concat _).resolve_left tokens
  rw [List.concat_eq_append] at ends
  rw [prepend, ends, ← List.append_assoc, List.getLast?_concat] at closing
  rw [ends, List.getLast?_concat]
  exact closing

/-- Behind a text that is read to its end and closed by a semicolon, reading goes on as from the
start of a text. -/
theorem readFrom_append_of_semicolon (whole : (readFrom cursor index text).unterminated? = none)
    (closing : (readFrom cursor index text).body.getLast?.map (·.kind) =
      some (.symbol .semicolon)) (more : List Char) :
    readFrom cursor index (text ++ more) =
      prepend (readFrom cursor index text).body
        (readFrom (cursor.after text) (index + (readFrom cursor index text).body.length) more) := by
  have sealed := sealed_of_semicolon whole closing
  induction size : text.length using Nat.strongRecOn generalizing cursor index text with
  | _ size ih =>
    subst size
    cases text with
    | nil => exact absurd sealed not_sealed_nil
    | cons c rest =>
      cases starts : next (c :: rest) with
      | unterminated what => exact absurd starts (next_of_whole whole what)
      | token kind length =>
        rw [readFrom_cons starts] at whole closing ⊢
        by_cases behind : rest.drop (length - 1) = []
        · -- Nothing is left behind the only token, so it is the semicolon.
          simp only [behind, readFrom, prepend, List.append_nil, List.getLast?_singleton,
            Option.map_some, Option.some.injEq] at closing ⊢
          subst closing
          obtain ⟨rfl, rfl⟩ := eq_of_single starts behind sealed
          rw [(symbol?_of_next starts).2]
          exact readFrom_cons (next_semicolon more) cursor index
        · have inside : length - 1 < rest.length := by simpa using behind
          have same : next (c :: (rest ++ more)) = .token kind length := by
            refine next_append sealed starts (by simp only [List.length_cons]; omega) ?_ more
            cases length with
            | zero => simp [starts]
            | succ => exact next_of_whole whole
          have inner := closing_of_prepend behind whole closing
          have onward := ih _ (by simp only [List.length_drop, List.length_cons]; omega) whole inner
            (sealed_of_semicolon whole inner) rfl
          rw [List.cons_append, readFrom_cons same,
            List.take_append_of_le_length (Nat.le_of_lt inside),
            List.drop_append_of_le_length (Nat.le_of_lt inside), onward, ← Cursor.after_append,
            List.cons_append, List.take_append_drop]
          simp [prepend, Nat.add_assoc, Nat.add_comm 1]

end Stream

end CypherAssist.Token
