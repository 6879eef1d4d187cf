import CypherAssist.Proofs.Token.Typing

/-! The languages of tokens, told without a reader, and the readers held against them. Each reader
finds the longest beginning of a text that is in its language, or finds that there is none; so what
a reader does need not be known any more where its lexemes are compared with others. -/
namespace CypherAssist.Token
open Text

/-! ## Languages -/

/-- One or more characters of one class. -/
def Run (accepts : Char → Bool) (lexeme : List Char) : Prop :=
  lexeme ≠ [] ∧ ∀ c ∈ lexeme, accepts c

/-- The letter e and digits, perhaps with a sign in front of them. -/
inductive Exponent : List Char → Prop where
  | plain (mark : c = 'e' ∨ c = 'E') (digits : Run isDecimalDigit power) : Exponent (c :: power)
  | signed (mark : c = 'e' ∨ c = 'E') (sign : s = '+' ∨ s = '-')
    (digits : Run isDecimalDigit power) : Exponent (c :: s :: power)

/-- Digits with a fraction, an exponent or both. -/
inductive DecimalNumber : List Char → Prop where
  | fraction (whole : Run isDecimalDigit front) (part : Run isDecimalDigit back) :
    DecimalNumber (front ++ '.' :: back)
  | both (whole : Run isDecimalDigit front) (part : Run isDecimalDigit back)
    (power : Exponent tail) : DecimalNumber (front ++ '.' :: (back ++ tail))
  | exponent (whole : Run isDecimalDigit front) (power : Exponent tail) :
    DecimalNumber (front ++ tail)

/-- What stands between the marks of a string. A backslash protects the next character, whatever it
is; any other character is neither a backslash nor the mark. -/
inductive StringBody (quote : Char) : List Char → Prop where
  | empty : StringBody quote []
  | plain (other : c ≠ quote) (free : c ≠ '\\') (rest : StringBody quote body) :
    StringBody quote (c :: body)
  | escaped (c : Char) (rest : StringBody quote body) : StringBody quote ('\\' :: c :: body)

/-- What stands between the backticks of a name. Two backticks stand for one. -/
inductive NameBody : List Char → Prop where
  | empty : NameBody []
  | plain (other : c ≠ '`') (rest : NameBody body) : NameBody (c :: body)
  | doubled (rest : NameBody body) : NameBody ('`' :: '`' :: body)

/-- The lexemes of the tokens of each kind. A block comment is closed by the first closing mark, and
a word is a keyword where its spelling in capitals is that of one. -/
inductive Spelt : Kind → List Char → Prop where
  | blank (run : Run isBlank chars) : Spelt .blank chars
  | lineComment (inside : ∀ c ∈ body, c ≠ '\r' ∧ c ≠ '\n') :
    Spelt .lineComment ('/' :: '/' :: body)
  | blockComment (first : ¬ ['*', '/'] <:+: body ++ ['*']) :
    Spelt .blockComment ('/' :: '*' :: (body ++ ['*', '/']))
  | decimal (number : DecimalNumber chars) : Spelt .decimal chars
  | integer (digits : Run isDecimalDigit chars) : Spelt .integer chars
  | singleQuoted (inside : StringBody '\'' body) : Spelt .singleQuoted ('\'' :: (body ++ ['\'']))
  | doubleQuoted (inside : StringBody '"' body) : Spelt .doubleQuoted ('"' :: (body ++ ['"']))
  | quotedName (inside : NameBody body) : Spelt .quotedName ('`' :: (body ++ ['`']))
  | keyword (word : IsName chars) (spells : upperCase chars = keyword.spelling.toList) :
    Spelt (.keyword keyword) chars
  | plainName (word : IsName chars)
    (other : ∀ keyword : Keyword, upperCase chars ≠ keyword.spelling.toList) :
    Spelt .plainName chars
  | symbol (sign : Symbol) : Spelt (.symbol sign) sign.spelling.toList

/-- The length of the longest beginning of the text that is in the language, if there is one. -/
def Longest (language : List Char → Prop) (text : List Char) : Option Nat → Prop
  | none => ∀ lexeme, lexeme <+: text → ¬ language lexeme
  | some length => (∃ lexeme, lexeme <+: text ∧ language lexeme ∧ lexeme.length = length) ∧
      ∀ lexeme, lexeme <+: text → language lexeme → lexeme.length ≤ length

variable {language inner : List Char → Prop} {text rest lexeme : List Char} {c : Char}
  {found : Option Nat} {accepts : Char → Bool}

/-! ## Languages and beginnings -/

theorem longest_cons_some {length : Nat}
    (behind : ∀ lexeme, lexeme <+: rest → (language (c :: lexeme) ↔ inner lexeme))
    (longest : Longest inner rest (some length)) :
    Longest language (c :: rest) (some (length + 1)) := by
  obtain ⟨⟨lexeme, starts, here, size⟩, most⟩ := longest
  refine ⟨⟨c :: lexeme, List.cons_prefix_cons.mpr ⟨rfl, starts⟩, (behind lexeme starts).mpr here,
    by simp [size]⟩, fun other begins among => ?_⟩
  rcases List.prefix_cons_iff.mp begins with rfl | ⟨tail, rfl, onward⟩
  · exact Nat.zero_le _
  · exact Nat.succ_le_succ (most tail onward ((behind tail onward).mp among))

/-- A language is read behind its first character. -/
theorem longest_cons (some : ¬ language [])
    (behind : ∀ lexeme, lexeme <+: rest → (language (c :: lexeme) ↔ inner lexeme))
    (longest : Longest inner rest found) : Longest language (c :: rest) (found.map (· + 1)) := by
  cases found with
  | none =>
    intro lexeme starts here
    rcases List.prefix_cons_iff.mp starts with rfl | ⟨tail, rfl, onward⟩
    · exact some here
    · exact longest tail onward ((behind tail onward).mp here)
  | some length => exact longest_cons_some behind longest

theorem longest_nil (some : ¬ language []) : Longest language [] none := by
  intro lexeme starts
  rwa [List.prefix_nil.mp starts]

/-- No word of the language starts with the first character of the text. -/
theorem longest_none_of_head (some : ¬ language [])
    (other : ∀ lexeme, lexeme <+: rest → ¬ language (c :: lexeme)) :
    Longest language (c :: rest) none := by
  intro lexeme starts here
  rcases List.prefix_cons_iff.mp starts with rfl | ⟨tail, rfl, begins⟩
  · exact some here
  · exact other tail begins here

theorem longest_congr (same : ∀ lexeme, lexeme <+: text → (language lexeme ↔ inner lexeme))
    (longest : Longest inner text found) : Longest language text found := by
  cases found with
  | none => exact fun lexeme starts here => longest lexeme starts ((same lexeme starts).mp here)
  | some length =>
    obtain ⟨⟨lexeme, starts, here, size⟩, most⟩ := longest
    exact ⟨⟨lexeme, starts, (same lexeme starts).mpr here, size⟩,
      fun other begins among => most other begins ((same other begins).mp among)⟩

/-- There is only one word to find. -/
theorem longest_unique {lexeme : List Char} (starts : lexeme <+: text) (here : language lexeme)
    (only : ∀ other, other <+: text → language other → other = lexeme) :
    Longest language text (some lexeme.length) :=
  ⟨⟨lexeme, starts, here, rfl⟩, fun other begins among =>
    Nat.le_of_eq (congrArg List.length (only other begins among))⟩

namespace Lexeme

/-! ## Runs -/

theorem longest_all (accepts : Char → Bool) (text : List Char) :
    Longest (fun lexeme => ∀ c ∈ lexeme, accepts c) text (some (run accepts text)) := by
  refine ⟨⟨text.takeWhile accepts, List.takeWhile_prefix _, fun c member =>
    List.all_eq_true.mp List.all_takeWhile c member, rfl⟩, ?_⟩
  rintro lexeme ⟨rest, rfl⟩ inside
  rw [run, List.takeWhile_append_of_pos inside, List.length_append]
  exact Nat.le_add_right ..

theorem longest_run? (accepts : Char → Bool) (text : List Char) :
    Longest (Run accepts) text (run? accepts text) := by
  obtain ⟨⟨lexeme, starts, inside, size⟩, most⟩ := longest_all accepts text
  unfold run?
  split
  · rename_i nothing
    intro other begins here
    have short := most other begins here.2
    exact here.1 (List.eq_nil_of_length_eq_zero (by omega))
  · rename_i some
    refine ⟨⟨lexeme, starts, ⟨?_, inside⟩, size⟩, fun other begins here =>
      most other begins here.2⟩
    rintro rfl
    exact some size.symm

theorem longest_blank? (text : List Char) : Longest (Spelt .blank) text (blank? text) := by
  refine longest_congr (fun lexeme _ => ⟨fun spelt => ?_, .blank⟩) (longest_run? isBlank text)
  cases spelt with
  | blank run => exact run

theorem longest_integer? (text : List Char) : Longest (Spelt .integer) text (integer? text) := by
  refine longest_congr (fun lexeme _ => ⟨fun spelt => ?_, .integer⟩)
    (longest_run? isDecimalDigit text)
  cases spelt with
  | integer digits => exact digits

/-- A name or keyword reaches as far as its characters go. -/
theorem longest_word? (text : List Char) : Longest IsName text (word? text) := by
  have some : ¬ IsName [] := by
    rintro ⟨c, rest, impossible, -⟩
    cases impossible
  have behind (c : Char) (lexeme : List Char) :
      IsName (c :: lexeme) ↔ isNameStart c ∧ ∀ d ∈ lexeme, isWordChar d :=
    ⟨fun ⟨_, _, same, named⟩ => by cases same; exact named, fun named => ⟨c, lexeme, rfl, named⟩⟩
  cases text with
  | nil => exact longest_nil some
  | cons c rest =>
    by_cases starts : isNameStart c
    · have onward (lexeme : List Char) (_ : lexeme <+: rest) :
          IsName (c :: lexeme) ↔ ∀ d ∈ lexeme, isWordChar d := by
        simp only [behind, starts, true_and]
      have longest := longest_cons some onward (longest_all isWordChar rest)
      simpa [word?, starts, Nat.add_comm] using longest
    · simpa [word?, starts] using longest_none_of_head some fun lexeme _ named =>
        starts ((behind c lexeme).mp named).1

/-! ## Comments -/

theorem longest_lineComment? (text : List Char) :
    Longest (Spelt .lineComment) text (lineComment? text) := by
  unfold lineComment?
  split
  · rename_i rest
    have longest := longest_all (fun c => c != '\r' && c != '\n') rest
    have second : Longest (fun lexeme => Spelt .lineComment ('/' :: lexeme)) ('/' :: rest)
        ((some (run (fun c => c != '\r' && c != '\n') rest)).map (· + 1)) := by
      refine longest_cons nofun (fun lexeme _ => ⟨fun spelt => ?_, fun inside => ?_⟩) longest
      · cases spelt with
        | lineComment inside => simpa using inside
      · exact .lineComment (by simpa using inside)
    rw [Nat.add_comm]
    exact longest_cons nofun (fun lexeme _ => Iff.rfl) second
  · rename_i other
    rintro lexeme ⟨rest, rfl⟩ spelt
    cases spelt with
    | lineComment inside => exact other _ rfl

/-- Behind the opening mark of a comment: what ends with the first closing mark. -/
def CommentTail (lexeme : List Char) : Prop :=
  ∃ body, lexeme = body ++ ['*', '/'] ∧ ¬ ['*', '/'] <:+: body ++ ['*']

theorem commentTail_cons (apart : ¬ ['*', '/'] <+: c :: lexeme) :
    CommentTail (c :: lexeme) ↔ CommentTail lexeme := by
  constructor
  · rintro ⟨body, same, first⟩
    cases body with
    | nil =>
      cases same
      exact absurd (List.prefix_refl _) apart
    | cons d body =>
      cases same
      exact ⟨body, rfl, fun inside => first (List.infix_cons inside)⟩
  · rintro ⟨body, rfl, first⟩
    refine ⟨c :: body, rfl, fun inside => ?_⟩
    rcases List.infix_cons_iff.mp inside with starts | inside
    · exact apart (starts.trans ⟨['/'], by simp⟩)
    · exact first inside

theorem longest_commentEnd? (text : List Char) :
    Longest CommentTail text (commentEnd? text) := by
  have some : ¬ CommentTail [] := by
    rintro ⟨body, same, -⟩
    simp at same
  fun_induction commentEnd? text with
  | case1 => exact longest_nil some
  | case2 rest =>
    have closed : ['*', '/'] <+: '*' :: '/' :: rest := ⟨rest, rfl⟩
    refine longest_unique closed ⟨[], rfl, by decide⟩ ?_
    rintro _ starts ⟨_ | ⟨c, _ | ⟨d, body⟩⟩, rfl, first⟩
    · rfl
    · simp at starts
    · obtain ⟨rfl, rfl, -⟩ := by simpa using starts
      exact absurd ⟨[], body ++ ['*'], rfl⟩ first
  | case3 c rest other ih =>
    refine longest_cons some (fun lexeme starts => commentTail_cons fun opens => ?_) ih
    obtain ⟨more, same⟩ := opens.trans (List.cons_prefix_cons.mpr ⟨rfl, starts⟩)
    cases same
    exact other _ rfl rfl

theorem longest_blockComment? (text : List Char) :
    Longest (Spelt .blockComment) text (blockComment? text) := by
  unfold blockComment?
  split
  · rename_i rest
    have second : Longest (fun lexeme => Spelt .blockComment ('/' :: lexeme)) ('*' :: rest)
        ((commentEnd? rest).map (· + 1)) := by
      refine longest_cons nofun (fun lexeme _ => ⟨fun spelt => ?_, ?_⟩) (longest_commentEnd? rest)
      · cases spelt with
        | blockComment first => exact ⟨_, rfl, first⟩
      · rintro ⟨body, rfl, first⟩
        exact .blockComment first
    have whole := longest_cons nofun (fun lexeme _ => Iff.rfl) second
    rwa [Option.map_map] at whole
  · rename_i other
    rintro lexeme ⟨rest, rfl⟩ spelt
    cases spelt with
    | blockComment first => exact other _ rfl

/-! ## Strings and names between backticks -/

/-- Behind the opening mark of a string: what a string has inside, and the closing mark. -/
def StringTail (quote : Char) (lexeme : List Char) : Prop :=
  ∃ body, lexeme = body ++ [quote] ∧ StringBody quote body

theorem stringTail_plain {quote : Char} (other : c ≠ quote) (free : c ≠ '\\') :
    StringTail quote (c :: lexeme) ↔ StringTail quote lexeme := by
  constructor
  · rintro ⟨body, same, inside⟩
    cases inside with
    | empty =>
      cases same
      exact absurd rfl other
    | plain _ _ inside =>
      cases same
      exact ⟨_, rfl, inside⟩
    | escaped =>
      cases same
      exact absurd rfl free
  · rintro ⟨body, rfl, inside⟩
    exact ⟨c :: body, rfl, .plain other free inside⟩

theorem stringTail_escaped {quote : Char} (apart : quote ≠ '\\') :
    StringTail quote ('\\' :: c :: lexeme) ↔ StringTail quote lexeme := by
  constructor
  · rintro ⟨body, same, inside⟩
    cases inside with
    | empty => cases same
    | plain _ free => exact absurd (List.cons.inj same).1.symm free
    | escaped _ inside =>
      simp only [List.cons_append, List.cons.injEq, true_and] at same
      obtain ⟨-, rfl⟩ := same
      exact ⟨_, rfl, inside⟩
  · rintro ⟨body, rfl, inside⟩
    exact ⟨'\\' :: c :: body, rfl, .escaped c inside⟩

theorem stringTail_quote {quote : Char} (apart : quote ≠ '\\') :
    StringTail quote (quote :: lexeme) ↔ lexeme = [] := by
  constructor
  · rintro ⟨body, same, inside⟩
    cases inside with
    | empty =>
      cases same
      rfl
    | plain other =>
      cases same
      exact absurd rfl other
    | escaped =>
      cases same
      exact absurd rfl apart
  · rintro rfl
    exact ⟨[], rfl, .empty⟩

theorem not_stringTail_backslash {quote : Char} (apart : quote ≠ '\\') :
    ¬ StringTail quote ['\\'] := by
  rintro ⟨body, same, inside⟩
  cases inside with
  | empty =>
    cases same
    exact apart rfl
  | plain | escaped => simp at same

theorem longest_stringEnd? {quote : Char} (apart : quote ≠ '\\') (text : List Char) :
    Longest (StringTail quote) text (stringEnd? quote text) := by
  have some : ¬ StringTail quote [] := by
    rintro ⟨body, same, -⟩
    simp at same
  fun_induction stringEnd? quote text with
  | case1 => exact longest_nil some
  | case2 c rest ih =>
    have second : Longest (fun lexeme => StringTail quote ('\\' :: lexeme)) (c :: rest)
        ((stringEnd? quote rest).map (· + 1)) :=
      longest_cons (not_stringTail_backslash apart)
        (fun lexeme _ => stringTail_escaped apart) ih
    have whole := longest_cons some (fun lexeme _ => Iff.rfl) second
    rwa [Option.map_map] at whole
  | case3 rest =>
    refine longest_unique ⟨rest, rfl⟩ ((stringTail_quote apart).mpr rfl) fun other starts here => ?_
    rcases List.prefix_cons_iff.mp starts with rfl | ⟨tail, rfl, -⟩
    · exact absurd here some
    · rw [(stringTail_quote apart).mp here]
  | case4 rest alone =>
    cases rest with
    | nil =>
      refine longest_none_of_head some fun lexeme starts => ?_
      rw [List.prefix_nil.mp starts]
      exact not_stringTail_backslash apart
    | cons c rest => exact absurd rfl (alone c rest rfl)
  | case5 c rest _ other free ih =>
    exact longest_cons some (fun lexeme _ => stringTail_plain other free) ih

theorem longest_string? {quote : Char} (apart : quote ≠ '\\') (text : List Char) :
    Longest (fun lexeme => ∃ body, lexeme = quote :: (body ++ [quote]) ∧ StringBody quote body) text
      (string? quote text) := by
  have some : ¬ ∃ body, [] = quote :: (body ++ [quote]) ∧ StringBody quote body := by
    rintro ⟨body, impossible, -⟩
    cases impossible
  unfold string?
  split
  · exact longest_nil some
  · rename_i c rest
    split
    · rename_i same
      subst same
      refine longest_cons some (fun lexeme _ => ?_) (longest_stringEnd? apart rest)
      simp only [List.cons.injEq, true_and, StringTail]
    · rename_i other
      refine longest_none_of_head some fun lexeme _ => ?_
      rintro ⟨body, same, -⟩
      exact other (List.cons.inj same).1

theorem longest_singleQuoted (text : List Char) :
    Longest (Spelt .singleQuoted) text (string? '\'' text) := by
  refine longest_congr (fun lexeme _ => ⟨fun spelt => ?_, ?_⟩) (longest_string? (by decide) text)
  · cases spelt with
    | singleQuoted inside => exact ⟨_, rfl, inside⟩
  · rintro ⟨body, rfl, inside⟩
    exact .singleQuoted inside

theorem longest_doubleQuoted (text : List Char) :
    Longest (Spelt .doubleQuoted) text (string? '"' text) := by
  refine longest_congr (fun lexeme _ => ⟨fun spelt => ?_, ?_⟩) (longest_string? (by decide) text)
  · cases spelt with
    | doubleQuoted inside => exact ⟨_, rfl, inside⟩
  · rintro ⟨body, rfl, inside⟩
    exact .doubleQuoted inside

/-- Behind the opening backtick of a name: what a name has inside, and the closing backtick. -/
def NameTail (lexeme : List Char) : Prop :=
  ∃ body, lexeme = body ++ ['`'] ∧ NameBody body

theorem nameTail_plain (other : c ≠ '`') : NameTail (c :: lexeme) ↔ NameTail lexeme := by
  constructor
  · rintro ⟨body, same, inside⟩
    cases inside with
    | empty => exact absurd (List.cons.inj same).1 other
    | plain _ inside => exact ⟨_, (List.cons.inj same).2, inside⟩
    | doubled => exact absurd (List.cons.inj same).1 other
  · rintro ⟨body, rfl, inside⟩
    exact ⟨c :: body, rfl, .plain other inside⟩

theorem nameTail_doubled : NameTail ('`' :: '`' :: lexeme) ↔ NameTail lexeme := by
  constructor
  · rintro ⟨body, same, inside⟩
    cases inside with
    | empty => cases same
    | plain other => exact absurd (List.cons.inj same).1.symm other
    | doubled inside => exact ⟨_, (List.cons.inj (List.cons.inj same).2).2, inside⟩
  · rintro ⟨body, rfl, inside⟩
    exact ⟨'`' :: '`' :: body, rfl, .doubled inside⟩

/-- Behind a single backtick there is no more of a name. -/
theorem not_nameTail_single (other : c ≠ '`') : ¬ NameTail ('`' :: c :: lexeme) := by
  rintro ⟨body, same, inside⟩
  cases inside with
  | empty => cases same
  | plain other => exact other (List.cons.inj same).1.symm
  | doubled => exact other (List.cons.inj (List.cons.inj same).2).1

/-- The first backtick closes a name that no later one closes. -/
theorem longest_shut (alone : ∀ more, '`' :: more <+: rest → ¬ NameTail more) :
    Longest NameTail ('`' :: rest) (some 1) := by
  have first : ['`'] <+: '`' :: rest := ⟨rest, rfl⟩
  refine longest_unique first ⟨[], rfl, .empty⟩ fun other starts here => ?_
  rcases List.prefix_cons_iff.mp starts with rfl | ⟨tail, rfl, onward⟩
  · obtain ⟨body, impossible, -⟩ := here
    simp at impossible
  cases tail with
  | nil => rfl
  | cons c more =>
    by_cases same : c = '`'
    · subst same
      exact absurd (nameTail_doubled.mp here) (alone more onward)
    · exact absurd here (not_nameTail_single same)

/-- Of several backticks that might close a name the last one does. -/
theorem longest_nameEnd? (text : List Char) : Longest NameTail text (nameEnd? text) := by
  have some : ¬ NameTail [] := by
    rintro ⟨body, same, -⟩
    simp at same
  fun_induction nameEnd? text with
  | case1 => exact longest_nil some
  | case2 rest distance closed ih =>
    rw [closed] at ih
    have second : Longest (fun lexeme => NameTail ('`' :: lexeme)) ('`' :: rest)
        (.some (distance + 1)) := longest_cons_some (fun lexeme _ => nameTail_doubled) ih
    exact longest_cons_some (fun lexeme _ => Iff.rfl) second
  | case3 rest opened ih =>
    rw [opened] at ih
    exact longest_shut fun more starts => ih more (List.cons_prefix_cons.mp starts).2
  | case4 rest alone =>
    refine longest_shut fun more starts => ?_
    obtain ⟨tail, same⟩ := starts
    exact absurd same.symm (alone _)
  | case5 c rest _ other ih =>
    exact longest_cons some (fun lexeme _ => nameTail_plain other) ih

theorem longest_quotedName? (text : List Char) :
    Longest (Spelt .quotedName) text (quotedName? text) := by
  unfold quotedName?
  split
  · rename_i rest
    refine longest_cons nofun (fun lexeme _ => ⟨fun spelt => ?_, ?_⟩) (longest_nameEnd? rest)
    · cases spelt with
      | quotedName inside => exact ⟨_, rfl, inside⟩
    · rintro ⟨body, rfl, inside⟩
      exact .quotedName inside
  · rename_i other
    rintro lexeme ⟨rest, rfl⟩ spelt
    cases spelt with
    | quotedName inside => exact other _ rfl

/-! ## Numbers -/

/-- A word that starts with a run goes on where the run of the text ends. -/
theorem longest_behind_run {length : Nat}
    (parts : ∀ lexeme, language lexeme ↔
      ∃ front tail, lexeme = front ++ tail ∧ Run accepts front ∧ inner tail)
    (stops : ∀ c tail, inner (c :: tail) → accepts c = false)
    (whole : run? accepts text = some length) (longest : Longest inner (text.drop length) found) :
    Longest language text (found.map (length + ·)) := by
  obtain ⟨⟨run, starts, accepted, rfl⟩, most⟩ : Longest (Run accepts) text (some length) :=
    whole ▸ longest_run? accepts text
  obtain ⟨rest, rfl⟩ := starts
  rw [List.drop_left] at longest
  -- Only the whole run can stand in front of a character that it does not accept.
  have onward (c front tail) (begins : front ++ c :: tail <+: run ++ rest)
      (inside : Run accepts front) (here : inner (c :: tail)) :
      front.length = run.length ∧ c :: tail <+: rest := by
    obtain ⟨more, same⟩ := begins
    rw [List.append_assoc] at same
    have size : Lexeme.run accepts (front ++ (c :: tail ++ more)) = front.length :=
      run_append inside.2 (by simpa using stops c tail here)
    rw [same, run_of_run? whole] at size
    exact ⟨size.symm, more, (List.append_inj same size.symm).2⟩
  cases found with
  | none =>
    intro lexeme begins here
    obtain ⟨front, tail, rfl, inside, ends⟩ := (parts lexeme).mp here
    cases tail with
    | nil => exact longest [] List.nil_prefix ends
    | cons c tail => exact longest _ (onward c front tail begins inside ends).2 ends
  | some distance =>
    obtain ⟨⟨tail, begins, ends, rfl⟩, far⟩ := longest
    refine ⟨⟨run ++ tail, (List.prefix_append_right_inj run).mpr begins,
      (parts _).mpr ⟨run, tail, rfl, accepted, ends⟩, List.length_append⟩, ?_⟩
    intro lexeme among here
    obtain ⟨front, tail, rfl, inside, ends⟩ := (parts lexeme).mp here
    rw [List.length_append]
    cases tail with
    | nil =>
      have short := most front (by simpa using among) inside
      simp only [List.length_nil]
      omega
    | cons c tail =>
      obtain ⟨size, within⟩ := onward c front tail among inside ends
      exact Nat.add_le_add (Nat.le_of_eq size) (far _ within ends)

theorem longest_of_run?_none
    (parts : ∀ lexeme, language lexeme →
      ∃ front tail, lexeme = front ++ tail ∧ Run accepts front)
    (nothing : run? accepts text = none) : Longest language text none := by
  have none : Longest (Run accepts) text none := nothing ▸ longest_run? accepts text
  intro lexeme starts here
  obtain ⟨front, tail, rfl, inside⟩ := parts lexeme here
  exact none front ((List.prefix_append front tail).trans starts) inside

/-- Nothing at all is allowed as well. -/
theorem longest_optional (longest : Longest language text found) :
    Longest (fun lexeme => lexeme = [] ∨ language lexeme) text (some (found.getD 0)) := by
  cases found with
  | none =>
    refine ⟨⟨[], List.nil_prefix, .inl rfl, rfl⟩, fun lexeme starts here => ?_⟩
    rcases here with rfl | here
    · exact Nat.le_refl 0
    · exact absurd here (longest lexeme starts)
  | some length =>
    obtain ⟨⟨lexeme, starts, here, size⟩, most⟩ := longest
    refine ⟨⟨lexeme, starts, .inr here, size⟩, fun other begins among => ?_⟩
    rcases among with rfl | among
    · exact Nat.zero_le _
    · exact most other begins among

/-- Behind the letter of an exponent: digits, perhaps with a sign in front of them. -/
def Power (lexeme : List Char) : Prop :=
  Run isDecimalDigit lexeme ∨
    ∃ s digits, lexeme = s :: digits ∧ (s = '+' ∨ s = '-') ∧ Run isDecimalDigit digits

theorem not_exponent_nil : ¬ Exponent [] := fun exponent => by cases exponent

theorem exponent_cons (mark : c = 'e' ∨ c = 'E') : Exponent (c :: lexeme) ↔ Power lexeme := by
  constructor
  · intro exponent
    cases exponent with
    | plain _ digits => exact .inl digits
    | signed _ sign digits => exact .inr ⟨_, _, rfl, sign, digits⟩
  · rintro (digits | ⟨s, digits, rfl, sign, run⟩)
    · exact .plain mark digits
    · exact .signed mark sign run

theorem power_cons (sign : c = '+' ∨ c = '-') :
    Power (c :: lexeme) ↔ Run isDecimalDigit lexeme := by
  have refused : isDecimalDigit c = false := by rcases sign with rfl | rfl <;> decide
  constructor
  · rintro (digits | ⟨s, digits, same, -, run⟩)
    · have accepted := digits.2 c (List.mem_cons_self ..)
      rw [refused] at accepted
      cases accepted
    · cases same
      exact run
  · exact fun run => .inr ⟨c, lexeme, rfl, sign, run⟩

theorem longest_power (text : List Char) :
    Longest Power text ((run? isDecimalDigit (text.drop (sign text))).map (sign text + ·)) := by
  have some : ¬ Power [] := by
    rintro (⟨some, -⟩ | ⟨s, digits, impossible, -⟩)
    · exact some rfl
    · cases impossible
  have signed (c : Char) (rest : List Char) (mark : c = '+' ∨ c = '-') :
      Longest Power (c :: rest) ((run? isDecimalDigit rest).map (1 + ·)) := by
    simpa only [Nat.add_comm] using
      longest_cons some (fun lexeme _ => power_cons mark) (longest_run? isDecimalDigit rest)
  unfold sign
  split
  · exact signed '+' _ (.inl rfl)
  · exact signed '-' _ (.inr rfl)
  · rename_i plus minus
    simp only [List.drop_zero, Nat.zero_add, Option.map_id']
    refine longest_congr (fun lexeme starts => ⟨?_, .inl⟩) (longest_run? isDecimalDigit text)
    rintro (digits | ⟨s, digits, rfl, rfl | rfl, -⟩)
    · exact digits
    · obtain ⟨rest, rfl⟩ := starts
      exact absurd rfl (plus _)
    · obtain ⟨rest, rfl⟩ := starts
      exact absurd rfl (minus _)

theorem longest_exponent? (text : List Char) : Longest Exponent text (exponent? text) := by
  unfold exponent?
  split
  · exact longest_nil not_exponent_nil
  · rename_i c rest
    split
    · rename_i mark
      have longest := longest_cons not_exponent_nil (fun lexeme _ => exponent_cons mark)
        (longest_power rest)
      simpa [Option.map_map, Function.comp_def, Nat.add_comm, Nat.add_left_comm] using longest
    · rename_i other
      refine longest_none_of_head not_exponent_nil fun lexeme _ exponent => ?_
      cases exponent with
      | plain mark | signed mark => exact other mark

/-- Behind the point of a decimal: digits, perhaps with an exponent. -/
def Fraction (lexeme : List Char) : Prop :=
  ∃ front tail, lexeme = front ++ tail ∧ Run isDecimalDigit front ∧ (tail = [] ∨ Exponent tail)

/-- Behind the first digits of a decimal: a point and a fraction, or an exponent. -/
def Scale (lexeme : List Char) : Prop :=
  (∃ rest, lexeme = '.' :: rest ∧ Fraction rest) ∨ Exponent lexeme

theorem not_scale_nil : ¬ Scale [] := by
  rintro (⟨rest, impossible, -⟩ | exponent)
  · cases impossible
  · exact not_exponent_nil exponent

theorem scale_point : Scale ('.' :: lexeme) ↔ Fraction lexeme := by
  constructor
  · rintro (⟨rest, same, part⟩ | exponent)
    · cases same
      exact part
    · cases exponent with
      | plain mark | signed mark => simp at mark
  · exact fun part => .inl ⟨lexeme, rfl, part⟩

theorem decimalNumber_iff : DecimalNumber lexeme ↔
    ∃ front tail, lexeme = front ++ tail ∧ Run isDecimalDigit front ∧ Scale tail := by
  constructor
  · intro number
    cases number with
    | fraction whole part =>
      exact ⟨_, _, rfl, whole, .inl ⟨_, rfl, _, [], by simp, part, .inl rfl⟩⟩
    | both whole part power =>
      exact ⟨_, _, rfl, whole, .inl ⟨_, rfl, _, _, rfl, part, .inr power⟩⟩
    | exponent whole power => exact ⟨_, _, rfl, whole, .inr power⟩
  · rintro ⟨front, _, rfl, whole, ⟨_, rfl, part, tail, rfl, digits, rfl | power⟩ | power⟩
    · simpa using .fraction whole digits
    · exact .both whole digits power
    · exact .exponent whole power

theorem isDecimalDigit_of_exponent (exponent : Exponent (c :: lexeme)) :
    isDecimalDigit c = false := by
  cases exponent with
  | plain mark | signed mark => rcases mark with rfl | rfl <;> decide

theorem isDecimalDigit_of_scale (scale : Scale (c :: lexeme)) : isDecimalDigit c = false := by
  rcases scale with ⟨rest, same, -⟩ | exponent
  · cases same
    decide
  · exact isDecimalDigit_of_exponent exponent

theorem longest_fraction (text : List Char) :
    Longest Fraction text ((run? isDecimalDigit text).map fun digits =>
      digits + (exponent? (text.drop digits)).getD 0) := by
  cases digits : run? isDecimalDigit text with
  | none =>
    refine longest_of_run?_none (fun lexeme part => ?_) digits
    obtain ⟨front, tail, same, run, -⟩ := part
    exact ⟨front, tail, same, run⟩
  | some length =>
    refine longest_behind_run (fun _ => Iff.rfl) (fun c tail ends => ?_) digits
      (longest_optional (longest_exponent? _))
    rcases ends with impossible | exponent
    · cases impossible
    · exact isDecimalDigit_of_exponent exponent

/-- A decimal goes on behind its digits with a point or with an exponent. -/
theorem longest_decimalNumber (text : List Char) :
    Longest DecimalNumber text (decimal? text) := by
  unfold decimal?
  cases whole : run? isDecimalDigit text with
  | none =>
    refine longest_of_run?_none (fun lexeme number => ?_) whole
    obtain ⟨front, tail, same, run, -⟩ := decimalNumber_iff.mp number
    exact ⟨front, tail, same, run⟩
  | some length =>
    have behind {found : Option Nat} (scale : Longest Scale (text.drop length) found) :
        Longest DecimalNumber text (found.map (length + ·)) :=
      longest_behind_run (fun _ => decimalNumber_iff) (fun _ _ => isDecimalDigit_of_scale) whole
        scale
    simp only [Option.bind_eq_bind, Option.bind_some]
    split
    · rename_i rest point
      have scale : Longest Scale (text.drop length) (((run? isDecimalDigit rest).map fun digits =>
          digits + (exponent? (rest.drop digits)).getD 0).map (· + 1)) := by
        rw [point]
        exact longest_cons not_scale_nil (fun _ _ => scale_point) (longest_fraction rest)
      have number := behind scale
      cases digits : run? isDecimalDigit rest with
      | none =>
        rw [digits] at number
        exact number
      | some fraction =>
        simp only [digits, Option.map_some] at number
        rwa [show length + (fraction + (exponent? (rest.drop fraction)).getD 0 + 1) =
          length + 1 + fraction + (exponent? (rest.drop fraction)).getD 0 by omega] at number
    · rename_i other
      have scale : Longest Scale (text.drop length) (exponent? (text.drop length)) := by
        refine longest_congr (fun lexeme starts => ⟨?_, .inr⟩) (longest_exponent? _)
        rintro (⟨rest, rfl, -⟩ | exponent)
        · obtain ⟨more, same⟩ := starts
          exact absurd same.symm (other _)
        · exact exponent
      have number := behind scale
      cases power : exponent? (text.drop length) <;> rw [power] at number <;> exact number

theorem longest_decimal? (text : List Char) : Longest (Spelt .decimal) text (decimal? text) := by
  refine longest_congr (fun lexeme _ => ⟨fun spelt => ?_, .decimal⟩) (longest_decimalNumber text)
  cases spelt with
  | decimal number => exact number

/-! ## Symbols -/

/-- The symbols are tried in such an order that the first one that fits is the longest. -/
theorem longest_symbol? (text : List Char) :
    Longest (fun lexeme => ∃ sign : Symbol, lexeme = sign.spelling.toList) text
      ((symbol? text).map (·.spelling.toList.length)) := by
  cases found : symbol? text with
  | none =>
    rintro _ starts ⟨sign, rfl⟩
    have refused := List.find?_eq_none.mp found sign (Symbol.mem_all sign)
    exact refused (List.isPrefixOf_iff_prefix.mpr starts)
  | some sign =>
    obtain ⟨fits, front, rest, order, before⟩ := List.find?_eq_some_iff_append.mp found
    refine ⟨⟨_, List.isPrefixOf_iff_prefix.mp fits, ⟨sign, rfl⟩, rfl⟩, ?_⟩
    rintro _ starts ⟨other, rfl⟩
    have sorted : Symbol.all.Pairwise fun one other =>
      other.spelling.toList.length ≤ one.spelling.toList.length := by decide
    have among : other ∈ front ++ sign :: rest := order ▸ Symbol.mem_all other
    rw [order] at sorted
    rcases List.mem_append.mp among with early | late
    · have refused := before other early
      rw [List.isPrefixOf_iff_prefix.mpr starts] at refused
      cases refused
    · rcases List.mem_cons.mp late with rfl | late
      · exact Nat.le_refl _
      · exact List.rel_of_pairwise_cons (List.pairwise_append.mp sorted).2.1 late

end Lexeme

end CypherAssist.Token
