import CypherAssist.Proofs.Token.Extent

/-! A word typed at the end of a text. Where the text does not end inside a word, what was read of
it stays the same: no lexeme goes on with a letter but a word itself, and a number at most with the
letter of an exponent right behind it. Only a comment to the end of the line takes the word in, and
behind what is left open nothing is read. -/
namespace CypherAssist

namespace Text

/-- A word that is a name or a keyword. -/
def IsName (word : List Char) : Prop :=
  ∃ c rest, word = c :: rest ∧ isNameStart c ∧ ∀ d ∈ rest, isWordChar d

variable {text word : List Char}

theorem isWordChar_of_mem (named : IsName word) {c : Char} (member : c ∈ word) : isWordChar c := by
  obtain ⟨first, rest, rfl, starts, inside⟩ := named
  rcases List.mem_cons.mp member with rfl | later
  · exact isWordChar_of_isNameStart starts
  · exact inside c later

/-- No sign is part of a word. -/
theorem not_mem_of_isName (named : IsName word) {sign : Char} (outside : isWordChar sign = false) :
    sign ∉ word := by
  intro member
  rw [isWordChar_of_mem named member] at outside
  cases outside

/-- A name goes on as a name. -/
theorem isName_append {more : List Char} (named : IsName word) (inside : ∀ d ∈ more, isWordChar d) :
    IsName (word ++ more) := by
  obtain ⟨first, rest, rfl, starts, within⟩ := named
  refine ⟨first, rest ++ more, rfl, starts, fun d member => ?_⟩
  exact (List.mem_append.mp member).elim (within d) (inside d)

end Text

namespace Token.Lexeme
open Text

variable {accepts : Char → Bool} {text word : List Char}

/-! ## Runs -/

/-- A run stops in front of a word that does not go on with it. -/
theorem run_append_of_refused (refuses : ∀ c ∈ word.head?, accepts c = false) :
    run accepts (text ++ word) = run accepts text := by
  rw [run, run, List.takeWhile_append]
  split
  · cases word with
    | nil => simp_all
    | cons c rest => simp_all [refuses c rfl]
  · rfl

theorem refuses_of_isName (named : IsName word)
    (refuses : ∀ c, isNameStart c → accepts c = false) : ∀ c ∈ word.head?, accepts c = false := by
  obtain ⟨c, rest, rfl, starts, -⟩ := named
  rintro _ ⟨⟩
  exact refuses c starts

theorem blank?_append_name (named : IsName word) : blank? (text ++ word) = blank? text := by
  have refuses := refuses_of_isName named fun _ starts =>
    isBlank_of_isWordChar (isWordChar_of_isNameStart starts)
  rw [blank?, blank?, run?, run?, run_append_of_refused refuses]

/-- A word is parted from the text in front of it that does not end inside a word. -/
theorem parted_of_isName (named : IsName word) (apart : EndsApart text) (some : text ≠ []) :
    Parted text word :=
  ⟨some, apart, fun _ _ _ => refuses_of_isName named fun _ => isDecimalDigit_of_isNameStart⟩

/-! ## Constructs -/

/-- A word closes nothing. -/
theorem commentEnd?_append_name (named : IsName word) :
    commentEnd? (text ++ word) = commentEnd? text := by
  have slash : '/' ∉ word := not_mem_of_isName named (by decide)
  have nothing (word : List Char) (slash : '/' ∉ word) : commentEnd? word = none := by
    fun_induction commentEnd? word <;> simp_all
  fun_induction commentEnd? text with
  | case1 => exact nothing word slash
  | case2 => simp [commentEnd?]
  | case3 c rest other ih =>
    rw [List.cons_append, commentEnd?, ih]
    rintro tail rfl same
    cases rest with
    | nil =>
      rw [List.nil_append] at same
      simp [same] at slash
    | cons d rest =>
      obtain ⟨rfl, -⟩ := List.cons.inj same
      exact other rest rfl rfl

theorem stringEnd?_append_name {quote : Char} (named : IsName word) (plain : quote ≠ '\\')
    (outside : isWordChar quote = false) :
    stringEnd? quote (text ++ word) = stringEnd? quote text := by
  have closing : quote ∉ word := not_mem_of_isName named outside
  have nothing (word : List Char) (closing : quote ∉ word) : stringEnd? quote word = none := by
    fun_induction stringEnd? quote word <;> simp_all
  fun_induction stringEnd? quote text with
  | case1 => exact nothing word closing
  | case2 c rest ih => simp [stringEnd?, ih]
  | case3 => simp [stringEnd?, plain]
  | case4 rest last =>
    -- The backslash at the end protects the first letter of the word.
    obtain rfl : rest = [] := by
      cases rest with
      | nil => rfl
      | cons c tail => exact absurd rfl (last c tail rfl)
    obtain ⟨c, tail, rfl, -⟩ := named
    simp [stringEnd?, nothing tail (fun member => closing (List.mem_cons_of_mem c member))]
  | case5 c rest _ other slash ih => simp [stringEnd?, other, slash, ih]

theorem nameEnd?_append_name (named : IsName word) :
    nameEnd? (text ++ word) = nameEnd? text := by
  have closing : '`' ∉ word := not_mem_of_isName named (by decide)
  have nothing (word : List Char) (closing : '`' ∉ word) : nameEnd? word = none := by
    fun_induction nameEnd? word <;> simp_all
  fun_induction nameEnd? text with
  | case1 => exact nothing word closing
  | case2 rest distance closed ih => simp [nameEnd?, ih, closed]
  | case3 rest opened ih => simp [nameEnd?, ih, opened]
  | case4 rest alone =>
    have apart (tail : List Char) : rest ++ word ≠ '`' :: tail := by
      cases rest with
      | nil =>
        rintro rfl
        exact closing (by simp)
      | cons c tail =>
        intro same
        obtain ⟨rfl, -⟩ := List.cons.inj same
        exact alone tail rfl
    cases shape : rest ++ word with
    | nil => simp [nameEnd?, shape]
    | cons c tail =>
      have other : c ≠ '`' := by
        rintro rfl
        exact apart tail shape
      simp [nameEnd?, shape, other]
  | case5 c rest _ other ih =>
    have plain : c ≠ '`' := other
    simp [nameEnd?, plain, ih]

theorem blockComment?_of_ne {c d : Char} (other : ¬ (c = '/' ∧ d = '*')) (rest : List Char) :
    blockComment? (c :: d :: rest) = none := by
  unfold blockComment?
  split
  · rename_i same
    cases same
    exact absurd ⟨rfl, rfl⟩ other
  · rfl

/-- Every text with a word behind it starts with two characters, unless it is empty; and the second
one is a letter if there was only one before. -/
theorem cons_append_name (named : IsName word) (some : text ≠ []) :
    (∃ c d rest, text = [c] ∧ word = d :: rest ∧ isWordChar d) ∨
      ∃ c d rest, text = c :: d :: rest := by
  match text with
  | [] => exact absurd rfl some
  | [c] =>
    obtain ⟨d, rest, rfl, starts, -⟩ := named
    exact .inl ⟨c, d, rest, rfl, rfl, isWordChar_of_isNameStart starts⟩
  | c :: d :: rest => exact .inr ⟨c, d, rest, rfl⟩

theorem blockComment?_append_name (named : IsName word) (some : text ≠ []) :
    blockComment? (text ++ word) = blockComment? text := by
  rcases cons_append_name named some with ⟨c, d, rest, rfl, rfl, letter⟩ | ⟨c, d, rest, rfl⟩
  · rw [List.singleton_append, blockComment?_of_ne (by rintro ⟨-, rfl⟩; cases letter)]
    simp [blockComment?]
  · by_cases opens : c = '/' ∧ d = '*'
    · obtain ⟨rfl, rfl⟩ := opens
      simp [blockComment?, commentEnd?_append_name named]
    · rw [List.cons_append, List.cons_append, blockComment?_of_ne opens, blockComment?_of_ne opens]

theorem lineComment?_append_name (named : IsName word) (some : text ≠ [])
    (shut : lineComment? text ≠ .some text.length) :
    lineComment? (text ++ word) = lineComment? text := by
  rcases cons_append_name named some with ⟨c, d, rest, rfl, rfl, letter⟩ | ⟨c, d, rest, rfl⟩
  · rw [List.singleton_append, lineComment?_of_ne (by rintro ⟨-, rfl⟩; cases letter)]
    simp [lineComment?]
  · exact lineComment?_append shut word

/-- A comment that is all of the text takes the word in. -/
theorem lineComment?_append_of_all (named : IsName word)
    (found : lineComment? text = some text.length) :
    lineComment? (text ++ word) = some (text ++ word).length := by
  unfold lineComment? at found
  split at found
  · rename_i rest
    simp only [List.length_cons, Option.some.injEq] at found
    have all : run (fun c => c != '\r' && c != '\n') rest = rest.length := by omega
    have inside : ∀ c ∈ rest ++ word, (c != '\r' && c != '\n') := by
      intro c member
      rcases List.mem_append.mp member with early | late
      · have taken : rest.takeWhile (fun c => c != '\r' && c != '\n') = rest :=
          (List.takeWhile_prefix _).eq_of_length all
        rw [← taken] at early
        exact List.all_eq_true.mp List.all_takeWhile c early
      · have letter := isWordChar_of_mem named late
        simp only [Bool.and_eq_true, bne_iff_ne]
        constructor <;> rintro rfl <;> cases letter
    have onward := @run_append _ (rest ++ word) [] inside (by simp)
    rw [List.append_nil] at onward
    simp only [List.cons_append, lineComment?, onward, List.length_cons, Option.some.injEq]
    omega
  · cases found

theorem opened?_append_name (named : IsName word) (some : text ≠ []) :
    opened? (text ++ word) = opened? text := by
  rcases cons_append_name named some with ⟨c, d, rest, rfl, rfl, letter⟩ | ⟨c, d, rest, rfl⟩
  · have star : d ≠ '*' := by
      rintro rfl
      cases letter
    unfold opened?
    split <;> simp_all
  · unfold opened?
    split <;> simp_all

theorem string?_append_name {quote : Char} (named : IsName word) (plain : quote ≠ '\\')
    (outside : isWordChar quote = false) (some : text ≠ []) :
    string? quote (text ++ word) = string? quote text := by
  cases text with
  | nil => exact absurd rfl some
  | cons c rest => simp [string?, stringEnd?_append_name named plain outside]

theorem quotedName?_append_name (named : IsName word) (some : text ≠ []) :
    quotedName? (text ++ word) = quotedName? text := by
  cases text with
  | nil => exact absurd rfl some
  | cons c rest =>
    by_cases opens : c = '`'
    · simp [quotedName?, opens, nameEnd?_append_name named]
    · simp [quotedName?, opens]

/-! ## The lexeme at the start -/

/-- No symbol has a letter in it. -/
theorem symbol?_append_name (named : IsName word) : symbol? (text ++ word) = symbol? text := by
  have signs : Symbol.all.all fun symbol => symbol.spelling.toList.all fun c => !isWordChar c := by
    decide
  refine symbol?_append fun symbol starts => Nat.le_of_not_lt fun long => ?_
  obtain ⟨c, rest, rfl, letter, -⟩ := named
  have reaches : text ++ [c] <+: symbol.spelling.toList :=
    List.prefix_of_prefix_length_le (List.prefix_append_right_inj text |>.mpr ⟨rest, rfl⟩) starts
      (by simp only [List.length_append, List.length_singleton]; omega)
  have sign := List.all_eq_true.mp (List.all_eq_true.mp signs symbol (Symbol.mem_all symbol)) c
    (reaches.subset (by simp))
  rw [isWordChar_of_isNameStart letter] at sign
  cases sign

/-- What was read at the start is read there, unless it is a comment that runs to the end. -/
theorem next_append_name (named : IsName word) (apart : EndsApart text) (some : text ≠ [])
    (shut : lineComment? text ≠ .some text.length) : next (text ++ word) = next text := by
  have parted := parted_of_isName named apart some
  have single := @string?_append_name text word '\'' named (by decide) (by decide) some
  have double := @string?_append_name text word '"' named (by decide) (by decide) some
  have complete : complete? (text ++ word) = complete? text := by
    simp only [complete?, blank?_append_name named, lineComment?_append_name named some shut,
      blockComment?_append_name named some, decimal?_append parted, integer?_append parted, single,
      double, quotedName?_append_name named some, words_append parted]
  rw [next, next, complete, opened?_append_name named some, symbol?_append_name named]

end Token.Lexeme

namespace Token.Stream
open Text Lexeme

variable {cursor : Cursor} {index : Nat} {text word : List Char}

/-- A text read to its end, with this token as the last one in front of the closing one. -/
def endingWith (front : List Token) (last : Token) : Stream :=
  ⟨front ++ [last], ⟨.endOfFile, [], last.place.after last.lexeme, last.index + 1⟩, none⟩

/-- How a text is read on when a word is typed behind it. Either the reading is cut short before
the word, or a comment takes the word in, or the word is a token of its own. -/
inductive Typing (cursor : Cursor) (index : Nat) (text : List Char) : Prop where
  | cut (remains : ∀ word, IsName word →
      (readFrom cursor index (text ++ word)).unterminated? ≠ none)
  | comment (front : List Token) (begun : List Char) (place : Cursor)
    (onward : ∀ word, IsName word → readFrom cursor index (text ++ word) =
      endingWith front ⟨.lineComment, begun ++ word, place, index + front.length⟩)
  | word (front : List Token) (place : Cursor)
    (onward : ∀ word, IsName word → readFrom cursor index (text ++ word) =
      endingWith front ⟨wordKind word, word, place, index + front.length⟩)

theorem next_name (named : IsName word) : next word = .token (wordKind word) word.length := by
  obtain ⟨c, rest, rfl, starts, inside⟩ := named
  have whole := @next_word c rest [] starts inside (by simp)
  rwa [List.append_nil] at whole

theorem readFrom_all {kind : Kind} (some : text ≠ [])
    (starts : next text = .token kind text.length) (cursor : Cursor) (index : Nat) :
    readFrom cursor index text = endingWith [] ⟨kind, text, cursor, index⟩ := by
  have split : next (text ++ []) = .token kind text.length := by rwa [List.append_nil]
  have read := readFrom_append some split cursor index
  rw [List.append_nil, readFrom] at read
  exact read

theorem ne_nil_of_isName (named : IsName word) : word ≠ [] := by
  obtain ⟨c, rest, rfl, -⟩ := named
  exact List.cons_ne_nil _ _

/-- A token in front that no word changes leaves the reading of what is behind it. -/
theorem typing_prepend {kind : Kind} {lexeme rest : List Char} (some : lexeme ≠ [])
    (starts : ∀ word, IsName word →
      next (lexeme ++ (rest ++ word)) = .token kind lexeme.length)
    (behind : Typing (cursor.after lexeme) (index + 1) rest) :
    Typing cursor index (lexeme ++ rest) := by
  have read (word) (named : IsName word) : readFrom cursor index (lexeme ++ rest ++ word) =
      prepend [⟨kind, lexeme, cursor, index⟩]
        (readFrom (cursor.after lexeme) (index + 1) (rest ++ word)) := by
    rw [List.append_assoc]
    exact readFrom_append some (starts word named) cursor index
  cases behind with
  | cut remains =>
    refine .cut fun word named => ?_
    rw [read word named]
    exact remains word named
  | comment front begun place onward =>
    refine .comment (⟨kind, lexeme, cursor, index⟩ :: front) begun place fun word named => ?_
    rw [read word named, onward word named, List.length_cons, Nat.add_comm front.length,
      ← Nat.add_assoc]
    rfl
  | word front place onward =>
    refine .word (⟨kind, lexeme, cursor, index⟩ :: front) place fun word named => ?_
    rw [read word named, onward word named, List.length_cons, Nat.add_comm front.length,
      ← Nat.add_assoc]
    rfl

/-- A text that ends apart from words is read on in one of these ways. -/
theorem typing_readFrom (cursor : Cursor) (index : Nat) (apart : EndsApart text) :
    Typing cursor index text := by
  induction cursor, index, text using readFrom_induction with
  | nothing cursor index =>
    refine .word [] cursor fun word named => ?_
    exact readFrom_all (ne_nil_of_isName named) (next_name named) cursor index
  | opened cursor index text what some opens =>
    have shut : lineComment? text ≠ .some text.length := by
      intro found
      simp [next, complete?_of_lineComment found] at opens
    refine .cut fun word named => ?_
    have still := (next_append_name named apart some shut).trans opens
    intro whole
    exact next_of_whole whole what still
  | token cursor index kind lexeme rest some starts ih =>
    by_cases open? : lineComment? (lexeme ++ rest) = .some (lexeme ++ rest).length
    · refine .comment [] (lexeme ++ rest) cursor fun word named => ?_
      refine readFrom_all (by simp [some]) ?_ cursor index
      rw [next, complete?_of_lineComment (lineComment?_append_of_all named open?)]
    · have onward (word) (named : IsName word) :
          next (lexeme ++ (rest ++ word)) = .token kind lexeme.length := by
        rw [← List.append_assoc, next_append_name named apart (by simp [some]) open?, starts]
      exact typing_prepend some onward (ih (endsApart_of_append lexeme apart))

end Token.Stream

end CypherAssist
