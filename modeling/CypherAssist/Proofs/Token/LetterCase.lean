import CypherAssist.Proofs.Token.Boundary
import Mathlib.Data.List.Forall2

/-! The case of ASCII letters. Reading a text tells a letter from other characters, the letter of an
exponent from other letters and the spelling of a keyword from other words, and none of this depends
on the case of a letter. So texts that differ in the case of letters only are cut into the same
tokens, which stand in the same places. -/
namespace CypherAssist

namespace Text

/-- The text with every ASCII capital made small. -/
def lowered (text : List Char) : List Char := text.map Char.toLower

/-- Two texts that are equal up to the case of ASCII letters. -/
def SameLetters (one two : List Char) : Prop := lowered one = lowered two

instance : Decidable (SameLetters one two) :=
  inferInstanceAs (Decidable (lowered one = lowered two))

variable {c d : Char} {text rest : List Char}

@[simp] theorem lowered_nil : lowered [] = [] := rfl

@[simp] theorem lowered_cons (c : Char) (rest : List Char) :
    lowered (c :: rest) = c.toLower :: lowered rest := rfl

@[simp] theorem length_lowered (text : List Char) : (lowered text).length = text.length :=
  List.length_map _

theorem take_lowered (count : Nat) (text : List Char) :
    (lowered text).take count = lowered (text.take count) := List.map_take.symm

theorem drop_lowered (count : Nat) (text : List Char) :
    (lowered text).drop count = lowered (text.drop count) := List.map_drop.symm

theorem SameLetters.length (same : SameLetters one two) : one.length = two.length := by
  simpa using congrArg List.length same

theorem SameLetters.take (same : SameLetters one two) (count : Nat) :
    SameLetters (one.take count) (two.take count) := by
  rw [SameLetters, ← take_lowered, ← take_lowered, same]

theorem SameLetters.drop (same : SameLetters one two) (count : Nat) :
    SameLetters (one.drop count) (two.drop count) := by
  rw [SameLetters, ← drop_lowered, ← drop_lowered, same]

/-! ## Characters -/

/-- What makes no difference between the cases of an ASCII letter makes none for any character. -/
theorem eq_of_toLower {α : Type} {f : Char → α}
    (ascii : ∀ code < 128, f (Char.ofNat code).toLower = f (Char.ofNat code)) (c : Char) :
    f c.toLower = f c := by
  by_cases small : c.toNat < 128
  · have here := ascii c.toNat small
    rwa [Char.ofNat_toNat] at here
  · have beyond : ¬ (c.val ≥ 'A'.val ∧ c.val ≤ 'Z'.val) := by
      rintro ⟨-, high⟩
      rw [UInt32.le_iff_toNat_le] at high
      exact small (Nat.lt_of_le_of_lt high (by decide))
    have own : c.toLower = c := dif_neg beyond
    rw [own]

theorem isBlank_toLower (c : Char) : isBlank c.toLower = isBlank c :=
  eq_of_toLower (by decide) c

theorem isDecimalDigit_toLower (c : Char) : isDecimalDigit c.toLower = isDecimalDigit c :=
  eq_of_toLower (by decide) c

theorem isWordChar_toLower (c : Char) : isWordChar c.toLower = isWordChar c :=
  eq_of_toLower (by decide) c

theorem isNameStart_toLower (c : Char) : isNameStart c.toLower = isNameStart c := by
  rw [isNameStart, isNameStart, isWordChar_toLower, isDecimalDigit_toLower]

/-- No letter turns into anything but a letter. -/
theorem toLower_eq_iff (sign : d.isAlpha = false) : c.toLower = d ↔ c = d := by
  have kept : c.toLower.isAlpha = c.isAlpha := eq_of_toLower (by decide) c
  by_cases letter : c.isAlpha
  · constructor
    · rintro rfl
      rw [kept, letter] at sign
      cases sign
    · rintro rfl
      rw [letter] at sign
      cases sign
  · have own : c.isAlpha = false → c.toLower = c := by
      intro other
      have small : c.isUpper = false := (Bool.or_eq_false_iff.mp other).1
      exact dif_neg (of_decide_eq_false small)
    rw [own (by simpa using letter)]

/-- A text begins with the same sign in either case. -/
theorem lowered_eq_cons_iff (sign : d.isAlpha = false) {tail : List Char} :
    lowered text = d :: tail ↔ ∃ behind, text = d :: behind ∧ lowered behind = tail := by
  cases text with
  | nil => simp
  | cons c rest =>
    rw [lowered_cons, List.cons.injEq, toLower_eq_iff sign]
    constructor
    · rintro ⟨rfl, same⟩
      exact ⟨rest, rfl, same⟩
    · rintro ⟨behind, same, below⟩
      cases same
      exact ⟨rfl, below⟩

theorem not_begins_lowered (sign : d.isAlpha = false)
    (other : ∀ tail, text = d :: tail → False) (tail : List Char) :
    lowered text = d :: tail → False := by
  intro begins
  obtain ⟨behind, same, -⟩ := (lowered_eq_cons_iff sign).mp begins
  exact other behind same

theorem not_begins_lowered_pair (first : c.isAlpha = false) (second : d.isAlpha = false)
    (other : ∀ tail, text = c :: d :: tail → False) (tail : List Char) :
    lowered text = c :: d :: tail → False := by
  intro begins
  obtain ⟨behind, same, onward⟩ := (lowered_eq_cons_iff first).mp begins
  obtain ⟨rest, below, -⟩ := (lowered_eq_cons_iff second).mp onward
  exact other rest (same.trans (congrArg (c :: ·) below))

/-- The capitals of a word are those of its small letters. -/
theorem upperCase_lowered (word : List Char) : upperCase (lowered word) = upperCase word := by
  rw [upperCase, upperCase, lowered, List.flatMap_map]
  exact congrArg (word.flatMap ·) (funext (eq_of_toLower (by decide)))

end Text

namespace Token.Lexeme
open Text

variable {accepts : Char → Bool}

/-! ## Readers -/

theorem run_lowered (same : ∀ c, accepts c.toLower = accepts c) (text : List Char) :
    run accepts (lowered text) = run accepts text := by
  rw [run, run, lowered, List.takeWhile_map, List.length_map]
  exact congrArg (fun inside => (text.takeWhile inside).length) (funext same)

theorem run?_lowered (same : ∀ c, accepts c.toLower = accepts c) (text : List Char) :
    run? accepts (lowered text) = run? accepts text := by
  rw [run?, run?, run_lowered same]

theorem blank?_lowered (text : List Char) : blank? (lowered text) = blank? text :=
  run?_lowered isBlank_toLower text

theorem integer?_lowered (text : List Char) : integer? (lowered text) = integer? text :=
  run?_lowered isDecimalDigit_toLower text

theorem lineComment?_lowered (text : List Char) :
    lineComment? (lowered text) = lineComment? text := by
  fun_cases lineComment? text with
  | case1 rest =>
    have inLine := @eq_of_toLower _ (fun c => c != '\r' && c != '\n') (by decide)
    simpa [lineComment?] using run_lowered inLine rest
  | case2 text other =>
    rw [lineComment?]
    exact not_begins_lowered_pair (by decide) (by decide) other

theorem commentEnd?_lowered (text : List Char) : commentEnd? (lowered text) = commentEnd? text := by
  fun_induction commentEnd? text with
  | case1 => rfl
  | case2 => rfl
  | case3 c rest other ih =>
    rw [lowered_cons, commentEnd?, ih]
    intro tail star
    rw [toLower_eq_iff (by decide)] at star
    exact not_begins_lowered (by decide) (fun tail => other tail star) tail

theorem blockComment?_lowered (text : List Char) :
    blockComment? (lowered text) = blockComment? text := by
  fun_cases blockComment? text with
  | case1 rest => exact congrArg (Option.map (· + 2)) (commentEnd?_lowered rest)
  | case2 text other =>
    rw [blockComment?]
    exact not_begins_lowered_pair (by decide) (by decide) other

theorem sign_lowered (text : List Char) : sign (lowered text) = sign text := by
  cases text with
  | nil => rfl
  | cons c rest =>
    have same := @eq_of_toLower _ (fun c => sign [c]) (by decide) c
    have first (c : Char) (rest : List Char) : sign (c :: rest) = sign [c] := by
      unfold sign
      split <;> simp_all
    rwa [lowered_cons, first, first c]

theorem exponent?_lowered (text : List Char) : exponent? (lowered text) = exponent? text := by
  cases text with
  | nil => rfl
  | cons c rest =>
    have letter := @eq_of_toLower _ (fun c => decide (c = 'e' ∨ c = 'E')) (by decide) c
    rw [decide_eq_decide] at letter
    simp only [lowered_cons, exponent?, letter, sign_lowered, drop_lowered,
      run?_lowered isDecimalDigit_toLower]

theorem decimal?_lowered (text : List Char) : decimal? (lowered text) = decimal? text := by
  unfold decimal?
  rw [run?_lowered isDecimalDigit_toLower]
  cases run? isDecimalDigit text with
  | none => rfl
  | some whole =>
    simp only [Option.bind_eq_bind, Option.bind_some, drop_lowered]
    generalize text.drop whole = behind
    by_cases point : ∃ tail, behind = '.' :: tail
    · obtain ⟨tail, rfl⟩ := point
      have dot : lowered ('.' :: tail) = '.' :: lowered tail := rfl
      simp only [dot, run?_lowered isDecimalDigit_toLower, drop_lowered, exponent?_lowered]
    · split
      · rename_i tail opens
        exact absurd opens (not_begins_lowered (by decide) (fun tail same => point ⟨tail, same⟩) _)
      · split
        · exact absurd ⟨_, rfl⟩ point
        · rw [exponent?_lowered]

/-- A backslash that protects nothing is one in either case. -/
private theorem protects_nothing {c : Char} {rest : List Char}
    (last : ∀ d tail, c = '\\' → rest = d :: tail → False) :
    ∀ d tail, c.toLower = '\\' → lowered rest = d :: tail → False := by
  intro d tail slash more
  cases rest with
  | nil => cases more
  | cons e behind => exact last e behind ((toLower_eq_iff (by decide)).mp slash) rfl

theorem stringEnd?_lowered {quote : Char} (sign : quote.isAlpha = false) (text : List Char) :
    stringEnd? quote (lowered text) = stringEnd? quote text := by
  fun_induction stringEnd? quote text with
  | case1 => rfl
  | case2 c rest ih => exact congrArg (Option.map (· + 2)) ih
  | case3 rest last =>
    rw [lowered_cons, stringEnd?, if_pos ((toLower_eq_iff sign).mpr rfl)]
    exact protects_nothing last
  | case4 rest last other =>
    rw [lowered_cons, stringEnd?, if_neg (mt (toLower_eq_iff sign).mp other), if_pos (by decide)]
    exact protects_nothing last
  | case5 c rest last other slash ih =>
    rw [lowered_cons, stringEnd?, if_neg (mt (toLower_eq_iff sign).mp other),
      if_neg (mt (toLower_eq_iff (by decide)).mp slash), ih]
    exact protects_nothing last

theorem string?_lowered {quote : Char} (sign : quote.isAlpha = false) (text : List Char) :
    string? quote (lowered text) = string? quote text := by
  cases text with
  | nil => rfl
  | cons c rest => simp only [lowered_cons, string?, toLower_eq_iff sign, stringEnd?_lowered sign]

theorem nameEnd?_lowered (text : List Char) : nameEnd? (lowered text) = nameEnd? text := by
  fun_induction nameEnd? text with
  | case1 => rfl
  | case2 rest distance closed ih =>
    have both : lowered ('`' :: '`' :: rest) = '`' :: '`' :: lowered rest := rfl
    rw [both, nameEnd?, ih, closed]
  | case3 rest opened ih =>
    have both : lowered ('`' :: '`' :: rest) = '`' :: '`' :: lowered rest := rfl
    rw [both, nameEnd?, ih, opened]
  | case4 rest alone =>
    have mark : lowered ('`' :: rest) = '`' :: lowered rest := rfl
    rw [mark, nameEnd?]
    exact not_begins_lowered (by decide) alone
  | case5 c rest doubled other ih =>
    rw [lowered_cons, nameEnd?, ih]
    · intro tail mark _
      exact other ((toLower_eq_iff (by decide)).mp mark)
    · intro mark
      exact other ((toLower_eq_iff (by decide)).mp mark)

theorem quotedName?_lowered (text : List Char) :
    quotedName? (lowered text) = quotedName? text := by
  fun_cases quotedName? text with
  | case1 rest => exact congrArg (Option.map (· + 1)) (nameEnd?_lowered rest)
  | case2 text other =>
    rw [quotedName?]
    exact not_begins_lowered (by decide) other

theorem word?_lowered (text : List Char) : word? (lowered text) = word? text := by
  cases text with
  | nil => rfl
  | cons c rest =>
    simp only [lowered_cons, word?, isNameStart_toLower, run_lowered isWordChar_toLower]

/-- Keywords are known by their capitals. -/
theorem wordKind_lowered (word : List Char) : wordKind (lowered word) = wordKind word := by
  rw [wordKind, wordKind, Keyword.ofWord?, Keyword.ofWord?, upperCase_lowered]

/-- No symbol has a letter in it. -/
theorem symbol?_lowered (text : List Char) : symbol? (lowered text) = symbol? text := by
  have signs : ∀ symbol ∈ Symbol.all, ∀ c ∈ symbol.spelling.toList, c.isAlpha = false := by
    have checked : Symbol.all.all fun symbol => symbol.spelling.toList.all fun c => !c.isAlpha := by
      decide
    simpa using checked
  have begins (spelling text : List Char) (signs : ∀ c ∈ spelling, c.isAlpha = false) :
      spelling.isPrefixOf (lowered text) = spelling.isPrefixOf text := by
    induction spelling generalizing text with
    | nil => simp
    | cons d spelling ih =>
      cases text with
      | nil => rfl
      | cons c rest =>
        have first : (d == c.toLower) = (d == c) := by
          rw [Bool.eq_iff_iff, beq_iff_eq, beq_iff_eq, eq_comm, toLower_eq_iff (signs d (by simp)),
            eq_comm]
        have later := ih rest fun c member => signs c (List.mem_cons_of_mem _ member)
        rw [lowered_cons, List.isPrefixOf, List.isPrefixOf, first, later]
  refine congrArg Symbol.all.find? (funext fun symbol => ?_)
  exact begins _ text (signs symbol (Symbol.mem_all symbol))

theorem opened?_lowered (text : List Char) : opened? (lowered text) = opened? text := by
  fun_cases opened? text with
  | case1 | case2 | case3 | case4 => rfl
  | case5 text comment single double name =>
    rw [opened?]
    · exact not_begins_lowered_pair (by decide) (by decide) comment
    · exact not_begins_lowered (by decide) single
    · exact not_begins_lowered (by decide) double
    · exact not_begins_lowered (by decide) name

theorem complete?_lowered (text : List Char) : complete? (lowered text) = complete? text := by
  have words (length : Nat) :
      wordKind ((lowered text).take length) = wordKind (text.take length) := by
    rw [take_lowered, wordKind_lowered]
  have single : string? '\'' (lowered text) = string? '\'' text := string?_lowered rfl text
  have double : string? '"' (lowered text) = string? '"' text := string?_lowered rfl text
  simp only [complete?, blank?_lowered, lineComment?_lowered, blockComment?_lowered,
    decimal?_lowered, integer?_lowered, single, double, quotedName?_lowered, word?_lowered, words]

/-- The lexeme at the start of a text does not depend on the case of its letters. -/
theorem next_lowered (text : List Char) : next (lowered text) = next text := by
  rw [next, next, complete?_lowered, opened?_lowered, symbol?_lowered]

end Token.Lexeme

namespace Token
open Text

/-- Moving over a text does not depend on the case of its letters. -/
theorem Cursor.after_lowered (cursor : Cursor) (text : List Char) :
    cursor.after (lowered text) = cursor.after text := by
  induction text generalizing cursor with
  | nil => rfl
  | cons c rest ih =>
    have step : cursor.advance c.toLower = cursor.advance c := by
      simp only [advance, toLower_eq_iff (c := c) (d := '\n') (by decide)]
    show (cursor.advance c.toLower).after (lowered rest) = (cursor.advance c).after rest
    rw [step, ih]

/-- Tokens that differ at most in the case of their letters. -/
structure SameButCase (one two : Token) : Prop where
  kind : one.kind = two.kind
  place : one.place = two.place
  index : one.index = two.index
  letters : SameLetters one.lexeme two.lexeme

/-- A place is the same behind texts that are equal up to the case of letters. -/
theorem Cursor.after_sameLetters {one two : List Char} (same : SameLetters one two)
    (cursor : Cursor) : cursor.after one = cursor.after two := by
  rw [← cursor.after_lowered one, same, cursor.after_lowered]

namespace Stream

/-- Streams of the same tokens but for the case of letters. -/
structure SameButCase (one two : Stream) : Prop where
  body : List.Forall₂ Token.SameButCase one.body two.body
  last : Token.SameButCase one.last two.last
  unterminated? : one.unterminated? = two.unterminated?

variable {one two : List Char}

theorem readFrom_unterminated {c : Char} {rest : List Char} {what : Unterminated}
    (starts : Lexeme.next (c :: rest) = .unterminated what) (cursor : Cursor) (index : Nat) :
    readFrom cursor index (c :: rest) =
      ⟨[], ⟨.endOfFile, c :: rest, cursor, index⟩, some what⟩ := by
  rw [readFrom]
  split
  · rename_i opens
    rw [starts] at opens
    cases opens
    rfl
  · rename_i other
    rw [starts] at other
    cases other

/-- Texts that are equal up to the case of letters are cut into the same tokens. -/
theorem readFrom_sameLetters (same : SameLetters one two) (cursor : Cursor) (index : Nat) :
    SameButCase (readFrom cursor index one) (readFrom cursor index two) := by
  induction length : one.length using Nat.strongRecOn generalizing one two cursor index with
  | ind size shorter =>
    subst length
    cases one with
    | nil =>
      cases two with
      | nil =>
        rw [readFrom]
        exact ⟨.nil, ⟨rfl, rfl, rfl, rfl⟩, rfl⟩
      | cons d other => cases same
    | cons c rest =>
      cases two with
      | nil => cases same
      | cons d other =>
        have below : SameLetters rest other := (List.cons.inj same).2
        have starts : Lexeme.next (c :: rest) = Lexeme.next (d :: other) := by
          rw [← Lexeme.next_lowered (c :: rest), same, Lexeme.next_lowered]
        cases found : Lexeme.next (d :: other) with
        | unterminated what =>
          rw [readFrom_unterminated (starts.trans found), readFrom_unterminated found]
          exact ⟨.nil, ⟨rfl, rfl, rfl, same⟩, rfl⟩
        | token kind length =>
          have lexeme : SameLetters (c :: rest.take (length - 1)) (d :: other.take (length - 1)) :=
            congrArg₂ List.cons (List.cons.inj same).1 (below.take _)
          have behind := below.drop (length - 1)
          rw [readFrom_cons (starts.trans found), readFrom_cons found,
            Cursor.after_sameLetters lexeme]
          have fewer : (rest.drop (length - 1)).length < (c :: rest).length := by
            rw [List.length_drop, List.length_cons]
            omega
          obtain ⟨body, last, reason⟩ := shorter _ fewer behind _ (index + 1) rfl
          exact ⟨.cons ⟨rfl, rfl, rfl, lexeme⟩ body, last, reason⟩

end Stream

end Token

end CypherAssist
