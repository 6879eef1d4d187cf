import CypherAssist.Document.Parse
import CypherAssist.Proofs.Token.Language

/-! Tokens as long as they can be. The readers are asked one after the other, and the first that
finds a lexeme wins; that this is the longest lexeme of any kind rests on the first character of a
text, which leaves numbers, comments with the sign that starts them, or a single kind to compare. -/
namespace CypherAssist.Token
open Text Lexeme

/-- The text opens a construct, and no beginning of it is such a construct with its end. -/
inductive LeftOpen (text : List Char) : Unterminated → Prop where
  | blockComment (opened : ['/', '*'] <+: text)
    (never : ∀ lexeme, lexeme <+: text → ¬ Spelt .blockComment lexeme) :
    LeftOpen text .blockComment
  | singleQuoted (opened : ['\''] <+: text)
    (never : ∀ lexeme, lexeme <+: text → ¬ Spelt .singleQuoted lexeme) :
    LeftOpen text .stringLiteral
  | doubleQuoted (opened : ['"'] <+: text)
    (never : ∀ lexeme, lexeme <+: text → ¬ Spelt .doubleQuoted lexeme) :
    LeftOpen text .stringLiteral
  | quotedName (opened : ['`'] <+: text)
    (never : ∀ lexeme, lexeme <+: text → ¬ Spelt .quotedName lexeme) :
    LeftOpen text .quotedName

/-- What a text starts with when tokens are as long as they can be: a construct left open; else the
longest lexeme of any kind; else, where no lexeme of any kind starts, one character in error. -/
inductive Munches (text : List Char) : Lexeme → Prop where
  | unterminated (opened : LeftOpen text what) : Munches text (.unterminated what)
  | longest (shut : ∀ what, ¬ LeftOpen text what) (starts : chars <+: text)
    (spelt : Spelt found chars)
    (most : ∀ other lexeme, lexeme <+: text → Spelt other lexeme →
      lexeme.length < chars.length ∨ (lexeme = chars ∧ other = found)) :
    Munches text (.token found chars.length)
  | error (shut : ∀ what, ¬ LeftOpen text what) (some : text ≠ [])
    (none : ∀ kind lexeme, lexeme <+: text → ¬ Spelt kind lexeme) :
    Munches text (.token .errorChar 1)

/-- The classes of first characters that keep the kinds of tokens apart. -/
inductive Initial where
  | blank | digit | name | slash | single | double | backtick | sign
  deriving DecidableEq

/-- The class of a first character. -/
def initial (c : Char) : Initial :=
  if isBlank c then .blank
  else if isDecimalDigit c then .digit
  else if isNameStart c then .name
  else if c = '/' then .slash
  else if c = '\'' then .single
  else if c = '"' then .double
  else if c = '`' then .backtick
  else .sign

/-- The class of the first character of every lexeme of a kind. -/
def Kind.initial : Kind → Initial
  | .blank => .blank
  | .decimal | .integer => .digit
  | .keyword _ | .plainName => .name
  | .lineComment | .blockComment | .symbol .divide => .slash
  | .singleQuoted => .single
  | .doubleQuoted => .double
  | .quotedName => .backtick
  | .symbol _ | .errorChar | .endOfFile => .sign

/-- The kinds of a class, but for words and for the signs that start nothing else. -/
def Initial.kinds : Initial → List Kind
  | .blank => [.blank]
  | .digit => [.decimal, .integer]
  | .slash => [.lineComment, .blockComment, .symbol .divide]
  | .single => [.singleQuoted]
  | .double => [.doubleQuoted]
  | .backtick => [.quotedName]
  | .name | .sign => []

variable {text rest lexeme other : List Char} {c : Char} {kind another : Kind} {length : Nat}
  {what : Unterminated}

/-! ## First characters -/

theorem initial_of_digit (digit : isDecimalDigit c) : initial c = .digit := by
  simp [initial, isBlank_of_isWordChar (isWordChar_of_isDecimalDigit digit), digit]

theorem initial_of_nameStart (starts : isNameStart c) : initial c = .name := by
  simp [initial, isBlank_of_isWordChar (isWordChar_of_isNameStart starts),
    isDecimalDigit_of_isNameStart starts, starts]

theorem initial_symbol (sign : Symbol) :
    sign.spelling.toList.head?.map initial = some (Kind.symbol sign).initial := by
  have checked : ∀ sign ∈ Symbol.all,
      sign.spelling.toList.head?.map initial = some (Kind.symbol sign).initial := by decide +kernel
  exact checked sign (Symbol.mem_all sign)

theorem exists_cons_of_run {accepts : Char → Bool} (run : Run accepts lexeme) :
    ∃ c rest, lexeme = c :: rest ∧ accepts c := by
  obtain ⟨c, rest, rfl⟩ := List.exists_cons_of_ne_nil run.1
  exact ⟨c, rest, rfl, run.2 c (List.mem_cons_self ..)⟩

/-- The first character tells the kinds of tokens apart, but for those of one class. -/
theorem initial_of_spelt (spelt : Spelt kind lexeme) :
    lexeme.head?.map initial = some kind.initial := by
  cases spelt with
  | blank run =>
    obtain ⟨c, rest, rfl, blank⟩ := exists_cons_of_run run
    simp [initial, blank, Kind.initial]
  | lineComment | blockComment => exact congrArg some (show initial '/' = .slash by decide)
  | singleQuoted => exact congrArg some (show initial '\'' = .single by decide)
  | doubleQuoted => exact congrArg some (show initial '"' = .double by decide)
  | quotedName => exact congrArg some (show initial '`' = .backtick by decide)
  | integer digits =>
    obtain ⟨c, rest, rfl, digit⟩ := exists_cons_of_run digits
    simp [initial_of_digit digit, Kind.initial]
  | decimal number =>
    obtain ⟨front, tail, rfl, digits, -⟩ := decimalNumber_iff.mp number
    obtain ⟨c, rest, rfl, digit⟩ := exists_cons_of_run digits
    simp [initial_of_digit digit, Kind.initial]
  | keyword word | plainName word =>
    obtain ⟨c, rest, rfl, starts, -⟩ := word
    simp [initial_of_nameStart starts, Kind.initial]
  | symbol sign => exact initial_symbol sign

theorem ne_nil_of_spelt (spelt : Spelt kind lexeme) : lexeme ≠ [] := by
  rintro rfl
  have head := initial_of_spelt spelt
  simp at head

/-- Two lexemes at the start of one text are of kinds with one class of first characters. -/
theorem initial_eq (one : Spelt kind lexeme) (starts : lexeme <+: text)
    (two : Spelt another other) (begins : other <+: text) : another.initial = kind.initial := by
  have first (chars : List Char) (some : chars ≠ []) (starts : chars <+: text) :
      chars.head? = text.head? := by
    obtain ⟨c, rest, rfl⟩ := List.exists_cons_of_ne_nil some
    obtain ⟨more, rfl⟩ := starts
    rfl
  have same := initial_of_spelt two
  rw [first other (ne_nil_of_spelt two) begins, ← first lexeme (ne_nil_of_spelt one) starts,
    initial_of_spelt one] at same
  exact (Option.some.inj same).symm

theorem mem_kinds (some : kind.initial.kinds ≠ []) : kind ∈ kind.initial.kinds := by
  cases kind with
  | keyword | plainName | errorChar | endOfFile => exact absurd rfl some
  | symbol mark => cases mark <;> first | exact absurd rfl some | decide
  | _ => decide

theorem eq_of_beginning (starts : lexeme <+: text) (begins : other <+: text)
    (size : other.length = lexeme.length) : other = lexeme :=
  (List.prefix_of_prefix_length_le begins starts (Nat.le_of_eq size)).eq_of_length size

/-! ## Constructs left open -/

theorem eq_none_of_never {language : List Char → Prop} {found : Option Nat}
    (never : ∀ lexeme, lexeme <+: text → ¬ language lexeme)
    (longest : Longest language text found) : found = none := by
  cases found with
  | none => rfl
  | some length =>
    obtain ⟨⟨lexeme, starts, here, -⟩, -⟩ := longest
    exact absurd here (never lexeme starts)

theorem never_of_eq_none {language : List Char → Prop} {found : Option Nat}
    (longest : Longest language text found) (nothing : found = none) (starts : lexeme <+: text) :
    ¬ language lexeme := by
  subst nothing
  exact longest lexeme starts

/-- Where no reader but that of symbols finds anything, nothing but symbols starts. -/
theorem symbol_of_incomplete (incomplete : complete? text = none) (starts : lexeme <+: text)
    (spelt : Spelt kind lexeme) : ∃ sign, kind = .symbol sign := by
  simp only [complete?, Option.orElse_eq_orElse, Option.orElse_eq_or, Option.or_eq_none_iff,
    Option.map_eq_none_iff] at incomplete
  obtain ⟨blank, line, block, decimal, integer, single, double, quoted, word⟩ := incomplete
  cases kind with
  | blank => exact absurd spelt (never_of_eq_none (longest_blank? text) blank starts)
  | lineComment => exact absurd spelt (never_of_eq_none (longest_lineComment? text) line starts)
  | blockComment => exact absurd spelt (never_of_eq_none (longest_blockComment? text) block starts)
  | decimal => exact absurd spelt (never_of_eq_none (longest_decimal? text) decimal starts)
  | integer => exact absurd spelt (never_of_eq_none (longest_integer? text) integer starts)
  | singleQuoted => exact absurd spelt (never_of_eq_none (longest_singleQuoted text) single starts)
  | doubleQuoted => exact absurd spelt (never_of_eq_none (longest_doubleQuoted text) double starts)
  | quotedName => exact absurd spelt (never_of_eq_none (longest_quotedName? text) quoted starts)
  | keyword =>
    cases spelt with
    | keyword named => exact absurd named (never_of_eq_none (longest_word? text) word starts)
  | plainName =>
    cases spelt with
    | plainName named => exact absurd named (never_of_eq_none (longest_word? text) word starts)
  | symbol sign => exact ⟨sign, rfl⟩
  | errorChar | endOfFile => cases spelt

theorem incomplete_of_never {found : Option Nat}
    (never : ∀ lexeme, lexeme <+: text → ¬ Spelt kind lexeme)
    (longest : Longest (Spelt kind) text found) (same : complete? text = found.map (kind, ·)) :
    complete? text = none := by
  rw [same, eq_none_of_never never longest]
  rfl

/-- A construct is left open where an opening mark starts nothing that is complete. -/
theorem leftOpen_iff : LeftOpen text what ↔ complete? text = none ∧ opened? text = some what := by
  constructor
  · intro opened
    cases opened with
    | blockComment opened never =>
      obtain ⟨rest, rfl⟩ := opened
      refine ⟨incomplete_of_never never (longest_blockComment? _) ?_, rfl⟩
      simp [complete?_blockComment, blockComment?, Function.comp_def]
    | singleQuoted opened never =>
      obtain ⟨rest, rfl⟩ := opened
      refine ⟨incomplete_of_never never (longest_singleQuoted _) ?_, rfl⟩
      simp [complete?_single, string?, Function.comp_def]
    | doubleQuoted opened never =>
      obtain ⟨rest, rfl⟩ := opened
      refine ⟨incomplete_of_never never (longest_doubleQuoted _) ?_, rfl⟩
      simp [complete?_double, string?, Function.comp_def]
    | quotedName opened never =>
      obtain ⟨rest, rfl⟩ := opened
      refine ⟨incomplete_of_never never (longest_quotedName? _) ?_, rfl⟩
      simp [complete?_quoted, quotedName?, Function.comp_def]
  · rintro ⟨incomplete, opened⟩
    have never {kind : Kind} (plain : ∀ sign, kind ≠ .symbol sign) (lexeme : List Char)
        (starts : lexeme <+: text) : ¬ Spelt kind lexeme := fun spelt => by
      obtain ⟨sign, same⟩ := symbol_of_incomplete incomplete starts spelt
      exact plain sign same
    unfold opened? at opened
    split at opened
    · cases opened
      exact .blockComment ⟨_, rfl⟩ (never (by simp))
    · cases opened
      exact .singleQuoted ⟨_, rfl⟩ (never (by simp))
    · cases opened
      exact .doubleQuoted ⟨_, rfl⟩ (never (by simp))
    · cases opened
      exact .quotedName ⟨_, rfl⟩ (never (by simp))
    · cases opened

/-! ## The longest lexeme -/

/-- The lexeme of this kind and length is longer than all others that the text starts with. -/
def Tops (text : List Char) (kind : Kind) (length : Nat) : Prop :=
  ∃ chars, chars <+: text ∧ Spelt kind chars ∧ chars.length = length ∧
    ∀ other lexeme, lexeme <+: text → Spelt other lexeme →
      lexeme.length < length ∨ (lexeme = chars ∧ other = kind)

/-- The longest lexeme of a kind tops all, if it is longer than those of the other kinds of its
class. -/
theorem tops_of_longest (longest : Longest (Spelt kind) text (some length))
    (listed : kind ∈ kind.initial.kinds)
    (others : ∀ chars, chars <+: text → Spelt kind chars → ∀ another ∈ kind.initial.kinds,
      another ≠ kind → ∀ lexeme, lexeme <+: text → Spelt another lexeme →
        lexeme.length < chars.length) : Tops text kind length := by
  obtain ⟨⟨chars, starts, spelt, rfl⟩, most⟩ := longest
  refine ⟨chars, starts, spelt, rfl, fun another lexeme begins also => ?_⟩
  by_cases same : another = kind
  · subst same
    rcases Nat.lt_or_eq_of_le (most lexeme begins also) with shorter | size
    · exact .inl shorter
    · exact .inr ⟨eq_of_beginning starts begins size, rfl⟩
  · have one := initial_eq spelt starts also begins
    have among : another ∈ another.initial.kinds := mem_kinds (one ▸ List.ne_nil_of_mem listed)
    exact .inl (others chars starts spelt another (one ▸ among) same lexeme begins also)

theorem keyword_eq_of_spelling {one two : Keyword}
    (same : one.spelling.toList = two.spelling.toList) : one = two := by
  obtain ⟨c, word, first, -, -, kind⟩ := Keyword.spelling_word one
  obtain ⟨d, others, second, -, -, also⟩ := Keyword.spelling_word two
  rw [← first, same, second, also] at kind
  exact (Kind.keyword.inj kind).symm

theorem wordKind_eq_keyword {keyword : Keyword}
    (spells : upperCase lexeme = keyword.spelling.toList) :
    wordKind lexeme = .keyword keyword := by
  unfold wordKind Keyword.ofWord?
  split
  · rename_i found
    have same := by simpa using List.find?_some found
    rw [keyword_eq_of_spelling (same.trans spells)]
  · rename_i nothing
    have other := List.find?_eq_none.mp nothing keyword (Keyword.mem_all keyword)
    exact absurd (decide_eq_true spells.symm) other

theorem wordKind_eq_plainName (other : ∀ keyword : Keyword,
    upperCase lexeme ≠ keyword.spelling.toList) : wordKind lexeme = .plainName := by
  unfold wordKind Keyword.ofWord?
  split
  · rename_i found
    have same := by simpa using List.find?_some found
    exact absurd same.symm (other _)
  · rfl

/-- A word is spelt as its kind. -/
theorem spelt_wordKind (named : IsName lexeme) : Spelt (wordKind lexeme) lexeme := by
  by_cases spells : ∃ keyword : Keyword, upperCase lexeme = keyword.spelling.toList
  · obtain ⟨keyword, spells⟩ := spells
    rw [wordKind_eq_keyword spells]
    exact .keyword named spells
  · have other := not_exists.mp spells
    rw [wordKind_eq_plainName other]
    exact .plainName named other

/-- A word is spelt as no kind but its own. -/
theorem eq_wordKind (spelt : Spelt kind lexeme) (word : kind.initial = .name) :
    IsName lexeme ∧ kind = wordKind lexeme := by
  cases spelt with
  | keyword named spells => exact ⟨named, (wordKind_eq_keyword spells).symm⟩
  | plainName named other => exact ⟨named, (wordKind_eq_plainName other).symm⟩
  | symbol sign => cases sign <;> cases word
  | _ => cases word

/-- A decimal is longer than any digits at its start. -/
theorem length_lt_of_decimal (number : DecimalNumber lexeme) (starts : lexeme <+: text)
    (digits : Run isDecimalDigit other) (begins : other <+: text) :
    other.length < lexeme.length := by
  refine Nat.lt_of_not_le fun long => ?_
  have inside := List.prefix_of_prefix_length_le starts begins long
  obtain ⟨front, tail, rfl, -, scale⟩ := decimalNumber_iff.mp number
  cases tail with
  | nil => exact not_scale_nil scale
  | cons c tail =>
    have digit := digits.2 c (inside.subset (by simp))
    rw [isDecimalDigit_of_scale scale] at digit
    cases digit

/-- A comment is longer than the sign that starts it, and starts no comment of the other kind. -/
theorem length_lt_of_comment (comment : kind = .lineComment ∨ kind = .blockComment)
    (starts : lexeme <+: text) (spelt : Spelt kind lexeme) (among : another ∈ Initial.slash.kinds)
    (apart : another ≠ kind) (begins : other <+: text) (also : Spelt another other) :
    other.length < lexeme.length := by
  obtain ⟨more, rfl⟩ := starts
  obtain ⟨rest, same⟩ := begins
  simp only [Initial.kinds, List.mem_cons, List.not_mem_nil, or_false] at among
  rcases comment with rfl | rfl
  · cases spelt with
    | lineComment =>
      rcases among with rfl | rfl | rfl
      · exact absurd rfl apart
      · cases also with
        | blockComment => simp at same
      · cases also with
        | symbol => simp [Symbol.spelling]
  · cases spelt with
    | blockComment =>
      rcases among with rfl | rfl | rfl
      · cases also with
        | lineComment => simp at same
      · exact absurd rfl apart
      · cases also with
        | symbol => simp [Symbol.spelling]

/-- A word is longer than all other words that the text starts with. -/
theorem tops_of_word? (found : word? text = some length) :
    Tops text (wordKind (text.take length)) length := by
  obtain ⟨⟨chars, starts, named, rfl⟩, most⟩ : Longest IsName text (some length) :=
    found ▸ longest_word? text
  rw [← List.prefix_iff_eq_take.mp starts]
  have spelt := spelt_wordKind named
  have word : (wordKind chars).initial = .name := by
    unfold wordKind
    split <;> rfl
  refine ⟨chars, starts, spelt, rfl, fun another lexeme begins also => ?_⟩
  obtain ⟨name, rfl⟩ := eq_wordKind also ((initial_eq spelt starts also begins).trans word)
  rcases Nat.lt_or_eq_of_le (most lexeme begins name) with shorter | size
  · exact .inl shorter
  · have same := eq_of_beginning starts begins size
    exact .inr ⟨same, congrArg wordKind same⟩

/-- The first reader that finds a lexeme finds one that is longer than all others. -/
theorem tops_of_complete? (found : complete? text = some (kind, length)) :
    Tops text kind length := by
  have alone {kind : Kind} (single : kind.initial.kinds = [kind]) (chars : List Char)
      (_ : chars <+: text) (_ : Spelt kind chars) (another : Kind)
      (among : another ∈ kind.initial.kinds) (apart : another ≠ kind) :
      ∀ lexeme, lexeme <+: text → Spelt another lexeme → lexeme.length < chars.length :=
    absurd (List.mem_singleton.mp (single ▸ among)) apart
  simp only [complete?, Option.orElse_eq_orElse, Option.orElse_eq_or, Option.or_eq_some_iff,
    Option.map_eq_some_iff, Prod.mk.injEq, exists_eq_right_right, Option.map_eq_none_iff] at found
  rcases found with ⟨blank, rfl⟩ | ⟨-, ⟨line, rfl⟩ | ⟨-, ⟨block, rfl⟩ | ⟨-, ⟨decimal, rfl⟩ |
    ⟨noDecimal, ⟨integer, rfl⟩ | ⟨-, ⟨single, rfl⟩ | ⟨-, ⟨double, rfl⟩ | ⟨-, ⟨quoted, rfl⟩ |
      ⟨-, word, rfl⟩⟩⟩⟩⟩⟩⟩⟩
  · exact tops_of_longest (blank ▸ longest_blank? text) (by decide) (alone rfl)
  · exact tops_of_longest (line ▸ longest_lineComment? text) (by decide)
      fun chars starts spelt another among apart lexeme =>
        length_lt_of_comment (.inl rfl) starts spelt among apart
  · exact tops_of_longest (block ▸ longest_blockComment? text) (by decide)
      fun chars starts spelt another among apart lexeme =>
        length_lt_of_comment (.inr rfl) starts spelt among apart
  · refine tops_of_longest (decimal ▸ longest_decimal? text) (by decide)
      fun chars starts spelt another among apart lexeme begins also => ?_
    rcases List.mem_cons.mp among with rfl | among
    · exact absurd rfl apart
    · obtain rfl := List.mem_singleton.mp among
      cases spelt with
      | decimal number =>
        cases also with
        | integer digits => exact length_lt_of_decimal number starts digits begins
  · refine tops_of_longest (integer ▸ longest_integer? text) (by decide)
      fun chars starts spelt another among apart lexeme begins also => ?_
    rcases List.mem_cons.mp among with rfl | among
    · exact absurd also (never_of_eq_none (longest_decimal? text) noDecimal begins)
    · exact absurd (List.mem_singleton.mp among) apart
  · exact tops_of_longest (single ▸ longest_singleQuoted text) (by decide) (alone rfl)
  · exact tops_of_longest (double ▸ longest_doubleQuoted text) (by decide) (alone rfl)
  · exact tops_of_longest (quoted ▸ longest_quotedName? text) (by decide) (alone rfl)
  · exact tops_of_word? word

theorem symbol_eq_of_spelling {one two : Symbol}
    (same : one.spelling.toList = two.spelling.toList) : one = two := by
  have checked : ∀ one ∈ Symbol.all, ∀ two ∈ Symbol.all,
      one.spelling.toList = two.spelling.toList → one = two := by decide
  exact checked one (Symbol.mem_all one) two (Symbol.mem_all two) same

/-- Where nothing else starts, the longest symbol is longer than all lexemes. -/
theorem tops_of_symbol? {sign : Symbol} (incomplete : complete? text = none)
    (found : symbol? text = some sign) :
    Tops text (.symbol sign) sign.spelling.toList.length := by
  have longest := longest_symbol? text
  rw [found] at longest
  unfold symbol? at found
  have starts : sign.spelling.toList <+: text := by simpa using List.find?_some found
  refine ⟨_, starts, .symbol sign, rfl, fun another lexeme begins also => ?_⟩
  obtain ⟨mark, rfl⟩ := symbol_of_incomplete incomplete begins also
  cases also
  rcases Nat.lt_or_eq_of_le (longest.2 _ begins ⟨mark, rfl⟩) with shorter | size
  · exact .inl shorter
  · have same := eq_of_beginning starts begins size
    exact .inr ⟨same, congrArg Kind.symbol (symbol_eq_of_spelling same)⟩

theorem munches_of_tops (shut : ∀ what, ¬ LeftOpen text what) (tops : Tops text kind length) :
    Munches text (.token kind length) := by
  obtain ⟨chars, starts, spelt, rfl, most⟩ := tops
  exact .longest shut starts spelt most

/-- The lexeme found at the start of a text is that of maximal munch. -/
theorem munches_next (some : text ≠ []) : Munches text (Lexeme.next text) := by
  unfold Lexeme.next
  split
  · rename_i complete
    refine munches_of_tops (fun what opened => ?_) (tops_of_complete? complete)
    rw [(leftOpen_iff.mp opened).1] at complete
    cases complete
  · rename_i incomplete
    split
    · rename_i opened
      exact .unterminated (leftOpen_iff.mpr ⟨incomplete, opened⟩)
    · rename_i unopened
      have shut (what : Unterminated) : ¬ LeftOpen text what := fun opened => by
        rw [(leftOpen_iff.mp opened).2] at unopened
        cases unopened
      split
      · rename_i found
        exact munches_of_tops shut (tops_of_symbol? incomplete found)
      · rename_i nothing
        refine .error shut some fun kind lexeme starts spelt => ?_
        obtain ⟨sign, rfl⟩ := symbol_of_incomplete incomplete starts spelt
        cases spelt
        have longest := longest_symbol? text
        rw [nothing] at longest
        exact longest _ starts ⟨sign, rfl⟩

/-! ## Streams -/

/-- The tokens of the stream are the lexemes that maximal munch reads one behind the other, from the
start of the text on. The stream ends where the text does or where a construct is left open, and
only then is there an issue. -/
structure Munched (text : List Char) (stream : Stream) : Prop where
  tokens : ∀ before token after, stream.body = before ++ token :: after →
    token.start = (before.flatMap (·.lexeme)).length ∧
      ∃ rest, text = before.flatMap (·.lexeme) ++ (token.lexeme ++ rest) ∧
        Munches (token.lexeme ++ rest) (.token token.kind token.lexeme.length)
  left : text = stream.body.flatMap (·.lexeme) ++ stream.last.lexeme
  ends : (stream.last.lexeme = [] ∧ Document.lexicalIssues stream = []) ∨
    ∃ what, Munches stream.last.lexeme (.unterminated what) ∧
      Document.lexicalIssues stream = [⟨.unterminated what, stream.last⟩]

namespace Stream

variable {cursor : Cursor} {index : Nat} {chars : List Char} {token : Token}

/-- A token stands behind the lexemes of those before it, and is the lexeme that is found there. -/
theorem reads_of_split {before after : List Token}
    (split : (readFrom cursor index chars).body = before ++ token :: after) :
    token.lexeme ≠ [] ∧ token.start = cursor.offset + (before.flatMap (·.lexeme)).length ∧
      ∃ rest, chars = before.flatMap (·.lexeme) ++ (token.lexeme ++ rest) ∧
        Lexeme.next (token.lexeme ++ rest) = .token token.kind token.lexeme.length := by
  induction cursor, index, chars using readFrom_induction generalizing before with
  | nothing | opened => simp at split
  | token cursor index kind lexeme behind some starts ih =>
    cases before with
    | nil =>
      obtain ⟨rfl, -⟩ := List.cons.inj split
      exact ⟨some, rfl, behind, rfl, starts⟩
    | cons first before =>
      obtain ⟨rfl, later⟩ := List.cons.inj split
      obtain ⟨other, start, rest, same, found⟩ := ih later
      refine ⟨other, ?_, rest, ?_, found⟩
      · rw [start, Cursor.offset_after, List.flatMap_cons, List.length_append, Nat.add_assoc]
      · rw [List.flatMap_cons, List.append_assoc]
        exact congrArg (lexeme ++ ·) same

/-- The closing token stands where nothing is left, or where a construct was found to be open. -/
theorem next_last (cursor : Cursor) (index : Nat) (chars : List Char) :
    ((readFrom cursor index chars).unterminated? = none ∧
      (readFrom cursor index chars).last.lexeme = []) ∨
    ∃ what, (readFrom cursor index chars).unterminated? = some what ∧
      (readFrom cursor index chars).last.lexeme ≠ [] ∧
      Lexeme.next (readFrom cursor index chars).last.lexeme = .unterminated what := by
  induction cursor, index, chars using readFrom_induction with
  | nothing => exact .inl ⟨rfl, rfl⟩
  | opened cursor index text what some starts => exact .inr ⟨what, rfl, some, starts⟩
  | token cursor index kind lexeme rest some starts ih => exact ih

/-- Reading is maximal munch, at every boundary between tokens. -/
theorem ofText_munched (text : List Char) : Munched text (ofText text) where
  tokens before token after split := by
    obtain ⟨some, start, rest, same, found⟩ := reads_of_split split
    refine ⟨by simpa using start, rest, same, ?_⟩
    rw [← found]
    exact munches_next (by simp [some])
  left := (lexemes_readFrom {} 0 text).symm
  ends := by
    rcases next_last {} 0 text with ⟨shut, nothing⟩ | ⟨what, opened, some, starts⟩
    · exact .inl ⟨nothing, by simp [Document.lexicalIssues, ofText, shut]⟩
    · refine .inr ⟨what, ?_, by simp [Document.lexicalIssues, ofText, opened]⟩
      rw [← starts]
      exact munches_next some

end Stream

end CypherAssist.Token
