import CypherAssist.Token.Lexeme

/-! What a text starts with, told by its first characters. The readers of lexemes are asked in turn,
and the first character rules most of them out: one that may start a name starts a word, and a blank
starts a run of blanks. -/
namespace CypherAssist

namespace Text

/-- No range of one table meets a range of the other. -/
def RangeTable.disjoint (first second : RangeTable) : Bool :=
  first.all fun range => second.all fun other => range.2 < other.1 || other.2 < range.1

theorem RangeTable.holds_of_disjoint {first second : RangeTable} {c : Char}
    (apart : first.disjoint second) (inside : first.holds c) : second.holds c = false := by
  obtain ⟨range, member, covers⟩ := List.any_eq_true.mp inside
  refine List.any_eq_false.mpr fun other among => ?_
  have separate := List.all_eq_true.mp (List.all_eq_true.mp apart range member) other among
  simp only [Bool.and_eq_true, Bool.or_eq_true, decide_eq_true_eq] at covers separate ⊢
  omega

/-- No character of a word is blank. -/
theorem isBlank_of_isWordChar {c : Char} (inside : isWordChar c = true) : isBlank c = false := by
  unfold isWordChar at inside
  unfold isBlank
  split
  · rename_i ascii
    rw [if_pos ascii] at inside
    have ranges : c.isAlphanum = ((decide (c.val ≥ 'A'.val ∧ c.val ≤ 'Z'.val) ||
        (decide (c.val ≥ 'a'.val) && decide (c.val ≤ 'z'.val))) ||
          (decide (c.val ≥ '0'.val) && decide (c.val ≤ '9'.val))) := rfl
    simp only [ranges, Bool.or_eq_true, Bool.and_eq_true, decide_eq_true_eq, beq_iff_eq,
      UInt32.le_iff_toNat_le, ge_iff_le] at inside
    change (((65 ≤ c.toNat ∧ c.toNat ≤ 90) ∨ (97 ≤ c.toNat ∧ c.toNat ≤ 122)) ∨
      (48 ≤ c.toNat ∧ c.toNat ≤ 57)) ∨ c = '_' at inside
    simp only [Bool.or_eq_false_iff, Bool.and_eq_false_iff, decide_eq_false_iff_not]
    rcases inside with ((upper | lower) | digit) | rfl
    · omega
    · omega
    · omega
    · decide
  · rename_i beyond
    rw [if_neg beyond] at inside
    have apart : wordTable.disjoint blankTable := by decide +kernel
    exact RangeTable.holds_of_disjoint apart inside

/-- Every range of one table lies in a range of the other. As both ascend, one pass over the wider
one is enough: each of its ranges takes the next few of the narrower one. -/
def RangeTable.coveredBy : RangeTable → RangeTable → Bool
  | [], _ => true
  | _ :: _, [] => false
  | range :: ranges, other :: others =>
    coveredBy ((range :: ranges).dropWhile fun range => other.1 ≤ range.1 && range.2 ≤ other.2)
      others

theorem RangeTable.holds_of_coveredBy {first second : RangeTable} {c : Char}
    (covered : first.coveredBy second) (inside : first.holds c) : second.holds c := by
  obtain ⟨range, member, covers⟩ := List.any_eq_true.mp inside
  clear inside
  induction second generalizing first with
  | nil =>
    cases first with
    | nil => cases member
    | cons => cases covered
  | cons other others ih =>
    cases first with
    | nil => cases member
    | cons head ranges =>
      let lies (range : Nat × Nat) : Bool := other.1 ≤ range.1 && range.2 ≤ other.2
      rw [← @List.takeWhile_append_dropWhile _ lies (head :: ranges)] at member
      rcases List.mem_append.mp member with taken | left
      · have wider := List.all_eq_true.mp List.all_takeWhile range taken
        refine List.any_eq_true.mpr ⟨other, List.mem_cons_self .., ?_⟩
        simp only [lies, Bool.and_eq_true, decide_eq_true_eq] at covers wider ⊢
        omega
      · obtain ⟨later, among, found⟩ := List.any_eq_true.mp (ih covered left)
        exact List.any_eq_true.mpr ⟨later, List.mem_cons_of_mem _ among, found⟩

theorem isWordChar_of_isDecimalDigit {c : Char} (digit : isDecimalDigit c) : isWordChar c := by
  unfold isDecimalDigit at digit
  unfold isWordChar
  split
  · rename_i ascii
    simp only [ascii, ↓reduceIte, Bool.and_eq_true, decide_eq_true_eq] at digit
    have plain : c.isDigit := by
      simp only [Char.isDigit, Bool.and_eq_true, decide_eq_true_eq, UInt32.le_iff_toNat_le,
        ge_iff_le]
      exact digit
    simp [Char.isAlphanum, plain]
  · rename_i beyond
    rw [if_neg beyond] at digit
    have covered : digitTable.coveredBy wordTable := by decide +kernel
    exact RangeTable.holds_of_coveredBy covered digit

theorem isDecimalDigit_of_isNameStart {c : Char} (starts : isNameStart c) :
    isDecimalDigit c = false := by
  simp only [isNameStart, Bool.and_eq_true, Bool.not_eq_true'] at starts
  exact starts.2

end Text

namespace Token.Lexeme
open Text

/-! ## Runs -/

/-- A run goes on as long as the characters are accepted, and stops where one is not. -/
theorem run_append {accepts : Char → Bool} {inside rest : List Char}
    (accepted : ∀ c ∈ inside, accepts c) (stops : ∀ c ∈ rest.head?, accepts c = false) :
    run accepts (inside ++ rest) = inside.length := by
  rw [run, List.takeWhile_append_of_pos accepted]
  cases rest with
  | nil => simp
  | cons c tail => simp [stops c rfl]

theorem run?_of_head {accepts : Char → Bool} {c : Char} (refused : accepts c = false)
    (rest : List Char) : run? accepts (c :: rest) = none := by
  simp [run?, run, refused]

/-! ## Words and blanks -/

variable {c : Char} {word rest : List Char}

/-- What may start a name starts nothing but a word. -/
theorem complete?_of_isNameStart (starts : isNameStart c) (rest : List Char) :
    complete? (c :: rest) =
      some (wordKind (c :: rest.takeWhile isWordChar), 1 + run isWordChar rest) := by
  have inWord := isWordChar_of_isNameStart starts
  have other (sign : Char) (outside : isWordChar sign = false) : c ≠ sign := by
    rintro rfl
    rw [inWord] at outside
    cases outside
  have digit := isDecimalDigit_of_isNameStart starts
  have blank : blank? (c :: rest) = none := run?_of_head (isBlank_of_isWordChar inWord) rest
  have slash := other '/' (by decide)
  have line : lineComment? (c :: rest) = none := by simp [lineComment?, slash]
  have block : blockComment? (c :: rest) = none := by simp [blockComment?, slash]
  have number : integer? (c :: rest) = none := run?_of_head digit rest
  have decimal : decimal? (c :: rest) = none := by
    rw [decimal?, run?_of_head digit]
    rfl
  have single : string? '\'' (c :: rest) = none := by simp [string?, other '\'' (by decide)]
  have double : string? '"' (c :: rest) = none := by simp [string?, other '"' (by decide)]
  have quoted : quotedName? (c :: rest) = none := by simp [quotedName?, other '`' (by decide)]
  have taken : (c :: rest).take (1 + run isWordChar rest) = c :: rest.takeWhile isWordChar := by
    rw [Nat.add_comm, List.take_succ_cons, run, ← List.prefix_iff_eq_take.mp]
    exact List.takeWhile_prefix _
  simp [complete?, blank, line, block, number, decimal, single, double, quoted, word?, starts,
    taken]

/-- A word reaches as far as its characters go. -/
theorem next_word (starts : isNameStart c) (inside : ∀ d ∈ word, isWordChar d)
    (stops : ∀ d ∈ rest.head?, isWordChar d = false) :
    next (c :: (word ++ rest)) = .token (wordKind (c :: word)) (word.length + 1) := by
  have run := run_append inside stops
  have taken : (word ++ rest).takeWhile isWordChar = word := by
    rw [List.takeWhile_append_of_pos inside]
    cases rest with
    | nil => simp
    | cons d tail => simp [stops d rfl]
  rw [next, complete?_of_isNameStart starts, run, taken, Nat.add_comm]

/-- A run of blanks reaches as far as the blanks go. -/
theorem next_blanks {blanks : List Char} (some : blanks ≠ []) (inside : ∀ d ∈ blanks, isBlank d)
    (stops : ∀ d ∈ rest.head?, isBlank d = false) :
    next (blanks ++ rest) = .token .blank blanks.length := by
  have run := run_append inside stops
  have found : blank? (blanks ++ rest) = .some blanks.length := by
    rw [blank?, run?, run]
    cases blanks with
    | nil => exact absurd rfl some
    | cons => rfl
  simp [next, complete?, found]

end Token.Lexeme

end CypherAssist
