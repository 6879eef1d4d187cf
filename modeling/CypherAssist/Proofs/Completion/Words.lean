import CypherAssist.Completion.Words
import CypherAssist.Proofs.Document.Prefix
import Mathlib.Data.List.DropRight

/-! The words of a document as completions. They are scanned from left to right and offered once
each, without the word that ends at the caret. That word is looked for in a line of the document,
which ends at more characters than a line does for a caret. Where none of the characters on which
the two disagree stands in front of the caret, both see the same word; behind one of them the word
being typed may be offered as a suggestion for itself. -/
namespace CypherAssist.Completion
open Text

/-- The words of a text, scanned from left to right: behind a character that starts no name the scan
goes on, and behind one that does it takes all word characters. -/
inductive Scans : List Char → List (List Char) → Prop where
  | nothing : Scans [] []
  | passed (apart : isNameStart c = false) (behind : Scans rest words) : Scans (c :: rest) words
  | word (starts : isNameStart c) (inside : ∀ d ∈ run, isWordChar d)
      (stops : ∀ d ∈ rest.head?, isWordChar d = false) (behind : Scans rest words) :
      Scans (c :: run ++ rest) ((c :: run) :: words)

/-- The longest run of word characters at the end of a text. -/
structure EndsWith (text run : List Char) : Prop where
  inside : ∀ c ∈ run, isWordChar c
  ends : run <:+ text
  longest : ∀ other, other <:+ text → (∀ c ∈ other, isWordChar c) → other.length ≤ run.length

/-- The words other than one, each once, in the order of their first occurrence. -/
structure Offers (words : List (List Char)) (typed : List Char) (offered : List (List Char)) :
    Prop where
  once : offered.Nodup
  members : ∀ word, word ∈ offered ↔ word ∈ words ∧ word ≠ typed
  inOrder : offered.Pairwise fun one two => words.idxOf one < words.idxOf two

/-! ## The scan -/

/-- The words read off a text are those of its scan. -/
theorem scans_wordsIn (text : List Char) : Scans text (wordsIn text) := by
  fun_induction wordsIn text with
  | case1 => exact .nothing
  | case2 c rest starts ih =>
    have stops : ∀ d ∈ (rest.dropWhile isWordChar).head?, isWordChar d = false := by
      intro d first
      have fails := List.head?_dropWhile_not isWordChar rest
      rw [Option.mem_def.mp first] at fails
      simpa using fails
    have inside : ∀ d ∈ rest.takeWhile isWordChar, isWordChar d := fun d => List.mem_takeWhile_imp
    have scanned := Scans.word starts inside stops ih
    rwa [List.cons_append, List.takeWhile_append_dropWhile] at scanned
  | case3 c rest other ih => exact .passed (by simpa using other) ih

/-- A text has one scan. -/
theorem wordsIn_of_scans (scans : Scans text words) : wordsIn text = words := by
  induction scans with
  | nothing => rw [wordsIn]
  | passed apart _ ih => rw [wordsIn, if_neg (by simp [apart]), ih]
  | @word c run rest words starts inside stops _ ih =>
    have taken : rest.takeWhile isWordChar = [] ∧ rest.dropWhile isWordChar = rest := by
      cases rest with
      | nil => exact ⟨rfl, rfl⟩
      | cons d rest => simp [stops d rfl]
    rw [List.cons_append, wordsIn, if_pos starts, List.takeWhile_append_of_pos inside,
      List.dropWhile_append_of_pos inside, taken.1, taken.2, List.append_nil, ih]

/-! ## The words once each -/

/-- Leaving out other words does not change which of two words occurs first. -/
theorem idxOf_lt_of_filter {keeps : List Char → Bool} {words : List (List Char)}
    {one two : List Char} (first : keeps one) (second : keeps two)
    (less : (words.filter keeps).idxOf one < (words.filter keeps).idxOf two) :
    words.idxOf one < words.idxOf two := by
  induction words with
  | nil => simp at less
  | cons word rest ih =>
    by_cases kept : keeps word
    · rw [List.filter_cons_of_pos kept] at less
      simp only [List.idxOf_cons] at less ⊢
      by_cases there : word = two
      · simp [there] at less
      · by_cases here : word = one
        · simp [here, beq_eq_false_iff_ne.mpr (here ▸ there)]
        · simp only [beq_eq_false_iff_ne.mpr here, beq_eq_false_iff_ne.mpr there, cond_false,
            Nat.add_lt_add_iff_right] at less ⊢
          exact ih less
    · have apart {other : List Char} (keep : keeps other) : word ≠ other := by
        rintro rfl
        exact kept keep
      rw [List.filter_cons_of_neg kept] at less
      simpa [List.idxOf_cons, apart first, apart second] using ih less

/-- Without later occurrences the words stand in the order of the first ones. -/
theorem pairwise_eraseDups (words : List (List Char)) :
    words.eraseDups.Pairwise fun one two => words.idxOf one < words.idxOf two := by
  induction size : words.length using Nat.strongRecOn generalizing words with
  | ind size shorter =>
    subst size
    cases words with
    | nil => exact .nil
    | cons word rest =>
      rw [List.eraseDups_cons, List.pairwise_cons]
      have fewer : (rest.filter fun other => !other == word).length < (word :: rest).length :=
        Nat.lt_succ_of_le (List.length_filter_le _ _)
      have apart {other : List Char}
          (member : other ∈ (rest.filter fun other => !other == word).eraseDups) :
          other ≠ word := by
        simpa using (List.mem_filter.mp (List.mem_eraseDups.mp member)).2
      have later {other : List Char} (differs : other ≠ word) :
          (word :: rest).idxOf other = rest.idxOf other + 1 := by
        simp [differs.symm]
      constructor
      · intro other member
        rw [List.idxOf_cons_self, later (apart member)]
        exact Nat.succ_pos _
      · refine (shorter _ fewer _ rfl).imp_of_mem fun {one two} first second less => ?_
        rw [later (apart first), later (apart second)]
        refine Nat.succ_lt_succ (idxOf_lt_of_filter ?_ ?_ less)
        · simpa using apart first
        · simpa using apart second

/-- What is kept of the words once each is offered as it should be. -/
theorem offers_filter (words : List (List Char)) (typed : List Char) :
    Offers words typed (words.eraseDups.filter fun word => word != typed) := by
  have inOrder := (pairwise_eraseDups words).filter fun word => word != typed
  refine ⟨?_, ?_, inOrder⟩
  · refine inOrder.imp fun {one two} less same => ?_
    rw [same] at less
    exact Nat.lt_irrefl _ less
  · intro word
    simp [List.mem_filter, List.mem_eraseDups]

/-! ## The word at the caret -/

/-- The longest run is what is left of the text from its last other character on. -/
theorem endsWith_iff {text run : List Char} :
    EndsWith text run ↔ run = text.rtakeWhile isWordChar := by
  have own : EndsWith text (text.rtakeWhile isWordChar) := by
    refine ⟨fun c => List.mem_rtakeWhile_imp, List.rtakeWhile_suffix _ _, ?_⟩
    rintro other ⟨before, rfl⟩ inside
    rw [List.rtakeWhile, List.reverse_append,
      List.takeWhile_append_of_pos (by simpa using inside)]
    simp
  constructor
  · intro ends
    have less := own.longest run ends.ends ends.inside
    have more := ends.longest _ own.ends own.inside
    have inner := List.suffix_of_suffix_length_le ends.ends own.ends less
    exact inner.eq_of_length (Nat.le_antisymm less more)
  · rintro rfl
    exact own

theorem rtakeWhile_append {above front : List Char}
    (stops : above.rtakeWhile isWordChar = []) :
    (above ++ front).rtakeWhile isWordChar = front.rtakeWhile isWordChar := by
  simp only [List.rtakeWhile, List.reverse_eq_nil_iff] at stops
  simp only [List.rtakeWhile, List.reverse_append, List.takeWhile_append, stops, List.append_nil]
  split
  · rename_i all
    rw [(List.takeWhile_prefix _).eq_of_length all]
  · rfl

/-- Where the text does not end with a newline, its last run is the longest one at its end. -/
theorem lastRun_of_plain {text : List Char} (plain : ∀ c ∈ text, isLineEnd c = false) :
    lastRun text = text.rtakeWhile isWordChar := by
  have last : text.reverse.head? ≠ some '\n' := by
    intro newline
    have member := List.mem_reverse.mp (List.mem_of_mem_head? newline)
    have ends := plain _ member
    cases ends
  simp only [lastRun, if_neg last, List.rtakeWhile]

/-- A line with what ends it does not end with a word character. -/
theorem rtakeWhile_ended {content ending : List Char}
    (ends : ending ∈ [['\r', '\n'], ['\r'], ['\n']]) :
    (content ++ ending).rtakeWhile isWordChar = [] := by
  simp only [List.mem_cons, List.not_mem_nil, or_false] at ends
  rcases ends with rfl | rfl | rfl
  · have newline := List.rtakeWhile_concat_neg isWordChar (content ++ ['\r']) '\n' (by decide)
    rwa [List.append_assoc] at newline
  · exact List.rtakeWhile_concat_neg isWordChar content '\r' (by decide)
  · exact List.rtakeWhile_concat_neg isWordChar content '\n' (by decide)

variable {text : List Char} {lines : List CaretLine} {line : CaretLine} {number character : Nat}

/-- The word that ends at a caret is the one that ends there in its line. -/
theorem rtakeWhile_untilCaret (divides : Divides text lines) (found : lines[number]? = some line) :
    (untilCaret number character text).rtakeWhile isWordChar =
      (line.content.take character).rtakeWhile isWordChar := by
  induction divides generalizing number with
  | last plain =>
    obtain ⟨rfl, rfl⟩ : number = 0 ∧ _ = line := by simpa [List.getElem?_singleton] using found
    rw [untilCaret_single plain, if_pos rfl]
  | @next content ending rest lines plain ends full below ih =>
    cases number with
    | zero =>
      obtain rfl : _ = line := by simpa using found
      rw [untilCaret_first plain (head?_ending ends rest)]
    | succ number =>
      rw [untilCaret_past plain, untilCaret_ending ends full, ← List.append_assoc,
        rtakeWhile_append (rtakeWhile_ended ends)]
      exact ih (by simpa using found)

/-- No line holds a line end but behind what it holds. -/
theorem plain_of_divides (divides : Divides text lines) (found : lines[number]? = some line) :
    ∀ c ∈ line.content, isLineEnd c = false := by
  induction divides generalizing number with
  | last plain =>
    obtain ⟨rfl, rfl⟩ : number = 0 ∧ _ = line := by simpa [List.getElem?_singleton] using found
    exact plain
  | next plain ends full below ih =>
    cases number with
    | zero =>
      obtain rfl : _ = line := by simpa using found
      exact plain
    | succ number => exact ih (by simpa using found)

/-! ## The line of the document -/

/-- Characters none of which ends a line stand together in front of the first line. -/
theorem lines_append {front : List Char} (plain : ∀ c ∈ front, isLineBreak c = false)
    (rest : List Char) : Text.lines (front ++ rest) = front.foldr consLine (Text.lines rest) := by
  induction front with
  | nil => rfl
  | cons c front ih =>
    obtain ⟨inside, later⟩ := List.forall_mem_cons.mp plain
    have other : c ≠ '\r' := by
      rintro rfl
      cases inside
    rw [List.cons_append, Text.lines, if_neg (by simp [inside]), ih later, List.foldr_cons]
    intro _ carriage
    exact absurd carriage other

/-- They begin the first line. -/
theorem head_foldr_consLine (front : List Char) (rest : List (List Char)) :
    front <+: ((front.foldr consLine rest)[0]?).getD [] := by
  induction front with
  | nil => exact List.nil_prefix
  | cons c front ih =>
    rw [List.foldr_cons]
    cases below : front.foldr consLine rest with
    | nil => simpa [below, consLine] using ih
    | cons line more => simpa [below, consLine] using ih

/-- What ends a line for a caret ends a line of the document. -/
theorem lines_ended {content ending rest : List Char}
    (plain : ∀ c ∈ content, isLineBreak c = false)
    (ends : ending ∈ [['\r', '\n'], ['\r'], ['\n']])
    (full : ending = ['\r'] → rest.head? ≠ some '\n') :
    Text.lines (content ++ (ending ++ rest)) = (content ++ ending) :: Text.lines rest := by
  have ended : Text.lines (ending ++ rest) = ending :: Text.lines rest := by
    simp only [List.mem_cons, List.not_mem_nil, or_false] at ends
    rcases ends with rfl | rfl | rfl
    · rfl
    · rw [List.singleton_append, Text.lines, if_pos (by decide)]
      intro behind _ newline
      exact full rfl (by simp [newline])
    · rw [List.singleton_append, Text.lines, if_pos (by decide)]
      simp
  rw [lines_append plain, ended]
  clear plain
  induction content with
  | nil => rfl
  | cons c content ih => rw [List.foldr_cons, ih]; rfl

/-- Where no other break stands in front of the caret, the line of the document has the same
characters in front of it. -/
theorem take_line_of_divides (divides : Divides text lines) (found : lines[number]? = some line)
    (within : character ≤ line.content.length)
    (same : ∀ c ∈ untilCaret number character text, isLineBreak c → isLineEnd c) :
    (((Text.lines text)[number]?).getD []).take character = line.content.take character := by
  -- In the line of the caret, the characters before it begin the first line of the document.
  have inLine {content : List Char} (rest : List Char) (within : character ≤ content.length)
      (plain : ∀ c ∈ content.take character, isLineBreak c = false) :
      (((Text.lines (content ++ rest))[0]?).getD []).take character = content.take character := by
    have begins := head_foldr_consLine (content.take character)
      (Text.lines (content.drop character ++ rest))
    rw [← lines_append plain, ← List.append_assoc, List.take_append_drop] at begins
    have taken := List.prefix_iff_eq_take.mp begins
    rwa [List.length_take, Nat.min_eq_left within, eq_comm] at taken
  have unbroken {content : List Char} (plain : ∀ c ∈ content, isLineEnd c = false)
      (allowed : ∀ c ∈ content, isLineBreak c → isLineEnd c) :
      ∀ c ∈ content, isLineBreak c = false := by
    intro c member
    rw [Bool.eq_false_iff]
    intro breaks
    have ends := allowed c member breaks
    rw [plain c member] at ends
    cases ends
  induction divides generalizing number with
  | @last content plain =>
    obtain ⟨rfl, rfl⟩ : number = 0 ∧ _ = line := by simpa [List.getElem?_singleton] using found
    rw [untilCaret_single plain, if_pos rfl] at same
    have here := inLine [] within
      (unbroken (fun c member => plain c (List.mem_of_mem_take member)) same)
    rwa [List.append_nil] at here
  | @next content ending rest lines plain ends full below ih =>
    cases number with
    | zero =>
      obtain rfl : _ = line := by simpa using found
      rw [untilCaret_first plain (head?_ending ends rest)] at same
      exact inLine _ within (unbroken (fun c member => plain c (List.mem_of_mem_take member)) same)
    | succ number =>
      rw [untilCaret_past plain, untilCaret_ending ends full] at same
      have whole := unbroken plain fun c member => same c (by simp [member])
      rw [lines_ended whole ends full, List.getElem?_cons_succ]
      exact ih (by simpa using found) fun c member => same c (by simp [member])

/-! ## What is offered -/

/-- Where there is no line there is nothing in front of the caret. -/
theorem typedWord_eq (text : List Char) (position : Position) :
    typedWord text position =
      lastRun ((((Text.lines text)[position.line]?).getD []).take position.character) := by
  rw [typedWord]
  cases (Text.lines text)[position.line]? with
  | none => simp [lastRun]
  | some line => rfl

/-- Where no other break stands in front of the caret, the word left out is the one typed. -/
theorem typedWord_of_divides {typed : List Char} {position : Position}
    (divides : Divides text lines)
    (found : lines[position.line]? = some line) (within : position.character ≤ line.content.length)
    (same : ∀ c ∈ untilCaret position.line position.character text, isLineBreak c → isLineEnd c)
    (ends : EndsWith (untilCaret position.line position.character text) typed) :
    typedWord text position = typed := by
  have plain : ∀ c ∈ line.content.take position.character, isLineEnd c = false := by
    intro c member
    exact plain_of_divides divides found c (List.mem_of_mem_take member)
  rw [typedWord_eq, take_line_of_divides divides found within same, lastRun_of_plain plain,
    endsWith_iff.mp ends, rtakeWhile_untilCaret divides found]

/-- At a position a document offers its words other than one, in their order. -/
def Suggests (text : String) (position : Position) (words : List (List Char)) (typed : List Char) :
    Prop :=
  ∃ offered, Offers words typed offered ∧
    documentWords text position = items (offered.map WideText.ofChars) .text

/-- Different words make different items. -/
theorem items_injective {one two : List (List Char)}
    (same : items (one.map WideText.ofChars) .text = items (two.map WideText.ofChars) .text) :
    one = two := by
  have label : Function.Injective fun name : WideText => (⟨name, .text⟩ : Item) :=
    fun _ _ same => congrArg Item.label same
  have wide : Function.Injective WideText.ofChars :=
    List.map_injective_iff.mpr fun _ _ same => Point.char.inj same
  exact List.map_injective_iff.mpr wide (List.map_injective_iff.mpr label same)

variable {document : String} {position : Position} {words : List (List Char)} {typed : List Char}

/-- A document offers its words other than the one that its line has in front of the caret. -/
theorem suggests_typedWord (scans : Scans document.toList words) :
    Suggests document position words (typedWord document.toList position) := by
  refine ⟨_, offers_filter words _, ?_⟩
  rw [documentWords, wordsIn_of_scans scans]

/-- It is right to leave out another word where neither is a word of the document. -/
theorem suggests_iff (scans : Scans document.toList words) :
    Suggests document position words typed ↔
      typedWord document.toList position = typed ∨
        typedWord document.toList position ∉ words ∧ typed ∉ words := by
  have suggests : Suggests document position words (typedWord document.toList position) :=
    suggests_typedWord scans
  obtain ⟨offered, offers, shown⟩ := suggests
  generalize typedWord document.toList position = left at *
  constructor
  · rintro ⟨others, right, also⟩
    obtain rfl := items_injective (shown.symm.trans also)
    by_cases same : left = typed
    · exact .inl same
    · refine .inr ⟨fun member => ?_, fun member => ?_⟩
      · exact ((offers.members left).mp ((right.members left).mpr ⟨member, same⟩)).2 rfl
      · exact ((right.members typed).mp ((offers.members typed).mpr ⟨member, Ne.symm same⟩)).2 rfl
  · rintro (rfl | ⟨absent, alsoAbsent⟩)
    · exact ⟨offered, offers, shown⟩
    · refine ⟨offered, ⟨offers.once, fun word => ?_, offers.inOrder⟩, shown⟩
      rw [offers.members]
      refine and_congr_right fun member => iff_of_true ?_ ?_
      · exact fun same => absent (same ▸ member)
      · exact fun same => alsoAbsent (same ▸ member)

/-- For every document and every position inside it, the words offered are those of the document
other than the word that its line has in front of the caret, each once and in the order of their
first occurrence. So the word being typed is what is left out if and only if that is the same word,
or neither is a word of the document; and it is left out wherever every line break in front of the
caret is a carriage return or a newline. -/
theorem typed_word_left_out_iff (divides : Divides document.toList lines)
    (found : lines[position.line]? = some line)
    (within : position.character ≤ line.content.length) (scans : Scans document.toList words)
    (ends : EndsWith (untilPosition document position).toList typed) :
    Suggests document position words (typedWord document.toList position) ∧
    (Suggests document position words typed ↔
      typedWord document.toList position = typed ∨
        typedWord document.toList position ∉ words ∧ typed ∉ words) ∧
    ((∀ c ∈ (untilPosition document position).toList, isLineBreak c → isLineEnd c) →
      Suggests document position words typed) := by
  refine ⟨suggests_typedWord scans, suggests_iff scans, ?_⟩
  intro same
  rw [untilPosition, String.toList_ofList] at same ends
  exact (suggests_iff scans).mpr (.inl (typedWord_of_divides divides found within same ends))

/-- In the second line a word is typed that stands in the first one too. -/
theorem repeated_word_left_out :
    Divides "ab a1\r\nab".toList [⟨['a', 'b', ' ', 'a', '1'], ['\r', '\n']⟩, ⟨['a', 'b'], []⟩] ∧
    Scans "ab a1\r\nab".toList [['a', 'b'], ['a', '1'], ['a', 'b']] ∧
    EndsWith (untilPosition "ab a1\r\nab" ⟨1, 2⟩).toList ['a', 'b'] ∧
    Suggests "ab a1\r\nab" ⟨1, 2⟩ [['a', 'b'], ['a', '1'], ['a', 'b']] ['a', 'b'] := by
  have last : Divides ['a', 'b'] [⟨['a', 'b'], []⟩] := .last (by simp [isLineEnd])
  have first : Divides (['a', 'b', ' ', 'a', '1'] ++ (['\r', '\n'] ++ ['a', 'b'])) _ :=
    .next (by simp [isLineEnd]) (by simp) (by simp) last
  have divides : Divides "ab a1\r\nab".toList
      [⟨['a', 'b', ' ', 'a', '1'], ['\r', '\n']⟩, ⟨['a', 'b'], []⟩] := first
  have scans : Scans "ab a1\r\nab".toList [['a', 'b'], ['a', '1'], ['a', 'b']] := by
    have read : wordsIn "ab a1\r\nab".toList = [['a', 'b'], ['a', '1'], ['a', 'b']] := by
      decide +kernel
    exact read ▸ scans_wordsIn _
  have ends : EndsWith (untilPosition "ab a1\r\nab" ⟨1, 2⟩).toList ['a', 'b'] :=
    endsWith_iff.mpr (by decide +kernel)
  obtain ⟨-, -, suggests⟩ := typed_word_left_out_iff divides rfl (by decide) scans ends
  have checked : (untilPosition "ab a1\r\nab" ⟨1, 2⟩).toList.all
      fun c => !isLineBreak c || isLineEnd c := by decide +kernel
  refine ⟨divides, scans, ends, suggests fun c member breaks => ?_⟩
  simpa [breaks] using List.all_eq_true.mp checked c member

/-- A line separator ends a line of the document but none for the caret. The word being typed is
looked for in front of the separator, so it is offered as a suggestion for itself. -/
theorem typed_word_suggested_behind_separator :
    Divides "a\u2028b".toList [⟨['a', '\u2028', 'b'], []⟩] ∧
    Scans "a\u2028b".toList [['a'], ['b']] ∧
    EndsWith (untilPosition "a\u2028b" ⟨0, 3⟩).toList ['b'] ∧
    documentWords "a\u2028b" ⟨0, 3⟩ = items ([['a'], ['b']].map WideText.ofChars) .text ∧
    ¬ Suggests "a\u2028b" ⟨0, 3⟩ [['a'], ['b']] ['b'] := by
  have scans : Scans "a\u2028b".toList [['a'], ['b']] := by
    have read : wordsIn "a\u2028b".toList = [['a'], ['b']] := by decide +kernel
    exact read ▸ scans_wordsIn _
  refine ⟨.last (by simp [isLineEnd]), scans, endsWith_iff.mpr (by decide +kernel),
    by decide +kernel, ?_⟩
  rw [suggests_iff scans]
  decide +kernel

end CypherAssist.Completion
