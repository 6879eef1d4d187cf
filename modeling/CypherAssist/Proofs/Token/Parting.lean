import CypherAssist.Proofs.Token.Lexeme

/-! A text parted from what stands behind it. Where it ends apart from words, neither a word nor a
number runs on; so what is read of either at the start of the text is read there with anything else
behind it. -/
namespace CypherAssist

namespace Text

/-- The text does not end inside a word. -/
def EndsApart (text : List Char) : Prop := ∀ c ∈ text.getLast?, isWordChar c = false

/-- What is left of a text ends as the text does. -/
theorem endsApart_of_append {text : List Char} (front : List Char)
    (apart : EndsApart (front ++ text)) : EndsApart text := by
  intro c last
  exact apart c (by simp_all [List.getLast?_append])

end Text

namespace Token
open Text

variable {text more front : List Char}

/-- No word and no number goes on from the text into what stands behind it. The text ends apart from
words, and where it ends with a point or a sign no digit follows. -/
structure Parted (text more : List Char) : Prop where
  some : text ≠ []
  apart : EndsApart text
  number : ∀ sign ∈ text.getLast?, sign ∈ ['.', '+', '-'] →
    ∀ c ∈ more.head?, isDecimalDigit c = false

/-- The rest of a parted text is parted. -/
theorem Parted.rest (parted : Parted (front ++ text) more) (some : text ≠ []) :
    Parted text more where
  some := some
  apart := endsApart_of_append front parted.apart
  number := by
    have number := parted.number
    rw [List.getLast?_append, List.getLast?_eq_some_getLast some, Option.some_or] at number
    rwa [List.getLast?_eq_some_getLast some]

theorem Parted.tail {c : Char} (parted : Parted (c :: text) more) (some : text ≠ []) :
    Parted text more :=
  @Parted.rest text more [c] parted some

namespace Lexeme

variable {accepts : Char → Bool} {length : Nat}

/-! ## Runs -/

theorem run_le (accepts : Char → Bool) (text : List Char) : run accepts text ≤ text.length :=
  (List.takeWhile_sublist accepts).length_le

theorem run_of_run? (found : run? accepts text = some length) : run accepts text = length := by
  unfold run? at found
  split at found <;> simp_all

/-- A run that stops inside a text stops there whatever comes behind. -/
theorem run_of_lt (stops : run accepts text < text.length) :
    run accepts (text ++ more) = run accepts text := by
  have some : ¬ (text.takeWhile accepts).length = text.length := Nat.ne_of_lt stops
  rw [run, List.takeWhile_append, if_neg some, run]

/-- A run ends in front of the first character that it refuses. -/
theorem run_lt_of_mem {c : Char} (member : c ∈ text) (refused : accepts c = false) :
    run accepts text < text.length := by
  refine Nat.lt_of_le_of_ne (run_le accepts text) fun all => ?_
  have taken : text.takeWhile accepts = text := (List.takeWhile_prefix _).eq_of_length all
  rw [← taken] at member
  rw [List.all_eq_true.mp List.all_takeWhile c member] at refused
  cases refused

theorem run?_append_of_mem {c : Char} (member : c ∈ text) (refused : accepts c = false)
    (more : List Char) : run? accepts (text ++ more) = run? accepts text := by
  rw [run?, run?, run_of_lt (run_lt_of_mem member refused)]

/-- A run of word characters stops inside a text that ends apart from words. -/
theorem run_lt_of_parted (parted : Parted text more) (words : ∀ c, accepts c → isWordChar c) :
    run accepts text < text.length := by
  refine run_lt_of_mem (List.getLast_mem parted.some) (Bool.eq_false_iff.mpr fun accepted => ?_)
  have outside := parted.apart _ (List.getLast?_eq_some_getLast parted.some)
  rw [words _ accepted] at outside
  cases outside

/-- What is left behind a number is parted as well. -/
theorem parted_behind_run (parted : Parted text more)
    (found : run? isDecimalDigit text = some length) :
    Parted (text.drop length) more ∧ (text ++ more).drop length = text.drop length ++ more := by
  have inside := run_lt_of_parted parted fun _ => isWordChar_of_isDecimalDigit
  rw [run_of_run? found] at inside
  have split : Parted (text.take length ++ text.drop length) more := by
    rwa [List.take_append_drop]
  exact ⟨split.rest (by simpa using inside),
    List.drop_append_of_le_length (Nat.le_of_lt inside)⟩

/-! ## Numbers -/

/-- Digits behind a point or a sign, or at the start, go on as far as they do in the text. -/
theorem digits?_append (parted : Parted (front ++ text) more)
    (begun : ∀ c ∈ front.getLast?, c ∈ ['.', '+', '-']) :
    run? isDecimalDigit (text ++ more) = run? isDecimalDigit text := by
  by_cases nothing : text = []
  · subst nothing
    rw [List.append_nil] at parted
    have refused := parted.number _ (List.getLast?_eq_some_getLast parted.some)
      (begun _ (List.getLast?_eq_some_getLast parted.some))
    cases more with
    | nil => rfl
    | cons c rest => exact run?_of_head (refused c rfl) rest
  · have inside := run_lt_of_parted (parted.rest nothing) fun _ => isWordChar_of_isDecimalDigit
    rw [run?, run?, run_of_lt inside]

theorem integer?_append (parted : Parted text more) : integer? (text ++ more) = integer? text :=
  @digits?_append text more [] parted (by simp)

theorem sign_append (some : text ≠ []) (more : List Char) : sign (text ++ more) = sign text := by
  cases text with
  | nil => exact absurd rfl some
  | cons c rest => unfold sign; split <;> simp_all

theorem sign_le (text : List Char) : sign text ≤ text.length := by
  unfold sign
  split <;> simp

theorem exponent?_append (parted : Parted text more) :
    exponent? (text ++ more) = exponent? text := by
  cases text with
  | nil => exact absurd rfl parted.some
  | cons c rest =>
    simp only [List.cons_append, exponent?]
    split
    · rename_i letter
      have begun : rest ≠ [] := by
        rintro rfl
        have outside := parted.apart c rfl
        rcases letter with rfl | rfl <;> exact absurd outside (by decide)
      have split : Parted (rest.take (sign rest) ++ rest.drop (sign rest)) more := by
        rw [List.take_append_drop]
        exact parted.tail begun
      have signed : ∀ c ∈ (rest.take (sign rest)).getLast?, c ∈ ['.', '+', '-'] := by
        unfold sign
        split <;> simp
      rw [sign_append begun, List.drop_append_of_le_length (sign_le rest),
        digits?_append split signed]
    · rfl

theorem decimal?_append (parted : Parted text more) : decimal? (text ++ more) = decimal? text := by
  rw [decimal?, decimal?, ← integer?, ← integer?, integer?_append parted]
  cases whole : integer? text with
  | none => rfl
  | some length =>
    obtain ⟨behind, split⟩ := parted_behind_run parted whole
    simp only [Option.bind_eq_bind, Option.bind_some, split]
    generalize text.drop length = tail at behind
    cases tail with
    | nil => exact absurd rfl behind.some
    | cons c rest =>
      by_cases point : c = '.'
      · subst point
        have digits := @digits?_append rest more ['.'] behind (by simp)
        simp only [List.cons_append, digits]
        cases fraction : run? isDecimalDigit rest with
        | none => rfl
        | some digits =>
          have begun : rest ≠ [] := by
            rintro rfl
            cases fraction
          obtain ⟨last, split⟩ := parted_behind_run (behind.tail begun) fraction
          simp only [Option.bind_some, split, exponent?_append last]
      · have powers := exponent?_append behind
        simp only [List.cons_append] at powers ⊢
        simp [point, powers]

/-! ## Words and symbols -/

theorem word?_append (parted : Parted text more) : word? (text ++ more) = word? text := by
  cases text with
  | nil => exact absurd rfl parted.some
  | cons c rest =>
    simp only [List.cons_append, word?]
    split
    · rename_i starts
      have begun : rest ≠ [] := by
        rintro rfl
        have outside := parted.apart c rfl
        rw [isWordChar_of_isNameStart starts] at outside
        cases outside
      rw [run_of_lt (run_lt_of_parted (parted.tail begun) fun _ inside => inside)]
    · rfl

theorem length_le_of_word? (found : word? text = some length) : length ≤ text.length := by
  unfold word? at found
  split at found
  · cases found
  · rename_i c rest
    split at found
    · cases found
      have short := run_le isWordChar rest
      rw [List.length_cons]
      omega
    · cases found

/-- A word at the start is the same word, of the same kind. -/
theorem words_append (parted : Parted text more) :
    ((word? (text ++ more)).map fun length => (wordKind ((text ++ more).take length), length)) =
      (word? text).map fun length => (wordKind (text.take length), length) := by
  rw [word?_append parted]
  cases found : word? text with
  | none => rfl
  | some length => simp [List.take_append_of_le_length (length_le_of_word? found)]

/-- The same symbol is found where none reaches over the end of the text. -/
theorem symbol?_append (inside : ∀ symbol : Symbol, symbol.spelling.toList <+: text ++ more →
    symbol.spelling.toList.length ≤ text.length) : symbol? (text ++ more) = symbol? text := by
  have same (symbol : Symbol) : symbol.spelling.toList.isPrefixOf (text ++ more) =
      symbol.spelling.toList.isPrefixOf text := by
    rw [Bool.eq_iff_iff, List.isPrefixOf_iff_prefix, List.isPrefixOf_iff_prefix]
    exact ⟨fun starts =>
      List.prefix_of_prefix_length_le starts (List.prefix_append _ _) (inside symbol starts),
      fun starts => starts.trans (List.prefix_append _ _)⟩
  simp only [symbol?, same]

/-! ## Comments -/

theorem lineComment?_of_ne {c d : Char} (other : ¬ (c = '/' ∧ d = '/')) (rest : List Char) :
    lineComment? (c :: d :: rest) = none := by
  unfold lineComment?
  split
  · rename_i same
    cases same
    exact absurd ⟨rfl, rfl⟩ other
  · rfl

/-- A comment to the end of the line ends where it did, unless it is all of the text. -/
theorem lineComment?_append {c d : Char}
    (shut : lineComment? (c :: d :: text) ≠ .some (c :: d :: text).length) (more : List Char) :
    lineComment? (c :: d :: text ++ more) = lineComment? (c :: d :: text) := by
  rw [List.cons_append, List.cons_append]
  by_cases opens : c = '/' ∧ d = '/'
  · obtain ⟨rfl, rfl⟩ := opens
    have short := run_le (fun c => c != '\r' && c != '\n') text
    simp only [lineComment?, List.length_cons, ne_eq, Option.some.injEq] at shut
    rw [lineComment?, lineComment?, run_of_lt (by omega)]
  · rw [lineComment?_of_ne opens, lineComment?_of_ne opens]

end Lexeme

end Token

end CypherAssist
