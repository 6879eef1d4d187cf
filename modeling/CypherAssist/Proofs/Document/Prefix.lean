import CypherAssist.Proofs.Document.Caret

/-! The text before a caret. Line ends divide a text into lines, a carriage return and the newline
behind it being one line end. The text before a caret is made up of the lines above its own and of
the beginning of that line; so it never parts such a pair, it grows with the position, and the same
caret stands at its end. -/
namespace CypherAssist.Text

/-! ## Lines -/

/-- A line of a text for a caret: what it holds, and the line end behind it. -/
structure CaretLine where
  content : List Char
  ending : List Char
  deriving DecidableEq, Repr

/-- All characters of a line. -/
def CaretLine.whole (line : CaretLine) : List Char := line.content ++ line.ending

/-- The lines into which a text is divided. Each but the last has a line end behind it, and a
carriage return is no line end by itself where a newline follows. -/
inductive Divides : List Char → List CaretLine → Prop where
  | last {content : List Char} (plain : ∀ c ∈ content, isLineEnd c = false) :
      Divides content [⟨content, []⟩]
  | next {content ending rest : List Char} {lines : List CaretLine}
      (plain : ∀ c ∈ content, isLineEnd c = false)
      (ends : ending ∈ [['\r', '\n'], ['\r'], ['\n']])
      (full : ending = ['\r'] → rest.head? ≠ some '\n') (below : Divides rest lines) :
      Divides (content ++ (ending ++ rest)) (⟨content, ending⟩ :: lines)

variable {text content ending rest : List Char} {lines : List CaretLine} {number character : Nat}

/-- One more character in front makes the first line longer. -/
theorem divides_cons {c : Char} (inside : isLineEnd c = false) (divides : Divides rest lines) :
    ∃ lines, Divides (c :: rest) lines := by
  have longer {content : List Char} (plain : ∀ d ∈ content, isLineEnd d = false) :
      ∀ d ∈ c :: content, isLineEnd d = false := List.forall_mem_cons.mpr ⟨inside, plain⟩
  cases divides with
  | last plain => exact ⟨_, .last (longer plain)⟩
  | next plain ends full below => exact ⟨_, .next (longer plain) ends full below⟩

/-- Every text is divided into lines. -/
theorem exists_divides (text : List Char) : ∃ lines, Divides text lines := by
  fun_induction lineEnds text with
  | case1 => exact ⟨_, .last (by simp)⟩
  | case2 rest ih =>
    obtain ⟨lines, below⟩ := ih
    have both : Divides ([] ++ (['\r', '\n'] ++ rest)) _ :=
      .next (by simp) (by simp) (by simp) below
    exact ⟨_, both⟩
  | case3 c rest apart ih =>
    obtain ⟨lines, below⟩ := ih
    by_cases ends : isLineEnd c
    · have full : [c] = ['\r'] → rest.head? ≠ some '\n' := by
        intro alone newline
        obtain ⟨behind, rfl⟩ := List.head?_eq_some_iff.mp newline
        exact apart behind (List.cons.inj alone).1 rfl
      have known : [c] ∈ [['\r', '\n'], ['\r'], ['\n']] := by
        simp only [isLineEnd, Bool.or_eq_true, beq_iff_eq] at ends
        rcases ends with rfl | rfl <;> simp
      have single : Divides ([] ++ ([c] ++ rest)) _ := .next (by simp) known full below
      exact ⟨_, single⟩
    · exact divides_cons (by simpa using ends) below

/-! ## The text before a caret in a line -/

/-- A caret in the first line of a text has the beginning of that line in front of it. -/
theorem untilCaret_first (plain : ∀ c ∈ content, isLineEnd c = false)
    (ended : ∀ c ∈ rest.head?, isLineEnd c = true) :
    untilCaret 0 character (content ++ rest) = content.take character := by
  have line : (content ++ rest).takeWhile (fun c => !isLineEnd c) = content := by
    rw [List.takeWhile_append_of_pos (by simpa using plain)]
    cases rest with
    | nil => simp
    | cons c rest => simp [ended c rfl]
  rw [untilCaret, line]

/-- A caret in a later line has the first line in front of it, as far as it goes. -/
theorem untilCaret_past (plain : ∀ c ∈ content, isLineEnd c = false) :
    untilCaret (number + 1) character (content ++ rest) =
      content ++ untilCaret (number + 1) character rest := by
  induction content with
  | nil => rfl
  | cons c content ih =>
    obtain ⟨inside, later⟩ := List.forall_mem_cons.mp plain
    have other : c ≠ '\r' := by
      rintro rfl
      cases inside
    rw [List.cons_append, untilCaret_succ_cons other, inside, if_neg (by simp), ih later,
      List.cons_append]

/-- A line end is passed as a whole. -/
theorem untilCaret_ending (ends : ending ∈ [['\r', '\n'], ['\r'], ['\n']])
    (full : ending = ['\r'] → rest.head? ≠ some '\n') :
    untilCaret (number + 1) character (ending ++ rest) =
      ending ++ untilCaret number character rest := by
  simp only [List.mem_cons, List.not_mem_nil, or_false] at ends
  rcases ends with rfl | rfl | rfl
  · rfl
  · rw [List.singleton_append, untilCaret]
    · rfl
    · intro behind _ newline
      exact full rfl (by simp [newline])
  · exact untilCaret_succ_cons (by decide) number character rest

theorem head?_ending (ends : ending ∈ [['\r', '\n'], ['\r'], ['\n']]) (rest : List Char) :
    ∀ c ∈ (ending ++ rest).head?, isLineEnd c = true := by
  simp only [List.mem_cons, List.not_mem_nil, or_false] at ends
  rcases ends with rfl | rfl | rfl <;> simp [isLineEnd]

/-- In a text of one line, a caret in a later one has all of it in front. -/
theorem untilCaret_single (plain : ∀ c ∈ content, isLineEnd c = false) :
    untilCaret number character content =
      if number = 0 then content.take character else content := by
  cases number with
  | zero =>
    have first : untilCaret 0 character (content ++ []) = content.take character :=
      untilCaret_first plain (by simp)
    simpa using first
  | succ number =>
    have past : untilCaret (number + 1) character (content ++ []) =
        content ++ untilCaret (number + 1) character [] := untilCaret_past plain
    simpa [untilCaret] using past

/-- In front of a caret are the lines above its own and the beginning of that line, and the whole
text where there are fewer lines. -/
theorem untilCaret_of_divides (divides : Divides text lines) (number character : Nat) :
    untilCaret number character text =
      match lines[number]? with
      | some line => (lines.take number).flatMap CaretLine.whole ++ line.content.take character
      | none => text := by
  induction divides generalizing number with
  | last plain =>
    rw [untilCaret_single plain]
    cases number <;> simp
  | @next content ending rest lines plain ends full below ih =>
    cases number with
    | zero => simpa using untilCaret_first plain (head?_ending ends rest)
    | succ number =>
      rw [untilCaret_past plain, untilCaret_ending ends full, ih, List.getElem?_cons_succ,
        List.take_succ_cons, List.flatMap_cons]
      cases lines[number]? <;> simp [CaretLine.whole]

/-! ## Positions -/

/-- What is in front of a caret begins the text. -/
theorem untilCaret_begins (number character : Nat) (text : List Char) :
    untilCaret number character text <+: text := by
  fun_induction untilCaret number character text with
  | case1 character text => exact (List.take_prefix _ _).trans (List.takeWhile_prefix _)
  | case2 => exact List.prefix_rfl
  | case3 number character rest ih =>
    exact (List.prefix_cons_inj _).mpr ((List.prefix_cons_inj _).mpr ih)
  | case4 number character c rest _ ih => exact (List.prefix_cons_inj c).mpr ih

/-- A caret never parts a carriage return from the newline behind it. -/
theorem untilCaret_ne_of_pair {before behind : List Char}
    (pair : text = before ++ '\r' :: '\n' :: behind) :
    untilCaret number character text ≠ before ++ ['\r'] := by
  fun_induction untilCaret number character text generalizing before with
  | case1 character text =>
    intro same
    have member : '\r' ∈ (text.takeWhile fun c => !isLineEnd c).take character := by simp [same]
    have inside := List.all_eq_true.mp List.all_takeWhile _ (List.mem_of_mem_take member)
    cases inside
  | case2 => simp at pair
  | case3 number character rest ih =>
    intro same
    rcases before with _ | ⟨first, _ | ⟨second, before⟩⟩
    · simp at same
    · simp at pair
    · simp only [List.cons_append, List.cons.injEq] at pair same
      exact ih pair.2.2 same.2.2
  | case4 number character c rest apart ih =>
    intro same
    cases before with
    | nil =>
      obtain ⟨isReturn, newline⟩ := List.cons.inj pair
      exact apart behind isReturn newline
    | cons first before =>
      simp only [List.cons_append, List.cons.injEq] at pair same
      exact ih pair.2 same.2

/-- A caret further on, by line and then by character, has no less in front of it. -/
theorem untilCaret_mono {farther later : Nat}
    (upTo : number < farther ∨ number = farther ∧ character ≤ later) (text : List Char) :
    untilCaret number character text <+: untilCaret farther later text := by
  obtain ⟨lines, divides⟩ := exists_divides text
  induction divides generalizing number farther with
  | @last content plain =>
    rw [untilCaret_single plain, untilCaret_single plain]
    split
    · split
      · exact List.take_prefix_take_left (by omega)
      · exact List.take_prefix _ _
    · have whole : (if farther = 0 then content.take later else content) = content :=
        if_neg (by omega)
      exact whole.symm ▸ List.prefix_rfl
  | @next content ending rest lines plain ends full below ih =>
    cases farther with
    | zero =>
      obtain ⟨rfl, fewer⟩ : number = 0 ∧ character ≤ later := by omega
      rw [untilCaret_first plain (head?_ending ends rest),
        untilCaret_first plain (head?_ending ends rest)]
      exact List.take_prefix_take_left fewer
    | succ farther =>
      have past : untilCaret (farther + 1) later (content ++ (ending ++ rest)) =
          content ++ untilCaret (farther + 1) later (ending ++ rest) := untilCaret_past plain
      rw [past]
      cases number with
      | zero =>
        rw [untilCaret_first plain (head?_ending ends rest)]
        exact (List.take_prefix _ _).trans (List.prefix_append _ _)
      | succ number =>
        rw [untilCaret_past plain, untilCaret_ending ends full, untilCaret_ending ends full,
          List.prefix_append_right_inj, List.prefix_append_right_inj]
        exact ih (by omega)

/-- The same caret has all of the text in front of it that it has left. -/
theorem untilCaret_again (number character : Nat) (text : List Char) :
    untilCaret number character (untilCaret number character text) =
      untilCaret number character text := by
  obtain ⟨lines, divides⟩ := exists_divides text
  -- In its own line the caret leaves a text of one line.
  have inLine {content : List Char} (plain : ∀ c ∈ content, isLineEnd c = false) :
      untilCaret 0 character (content.take character) = content.take character := by
    rw [untilCaret_single fun c member => plain c (List.mem_of_mem_take member), if_pos rfl,
      List.take_take, Nat.min_self]
  induction divides generalizing number with
  | last plain =>
    cases number with
    | zero => rw [untilCaret_single plain, if_pos rfl, inLine plain]
    | succ number => simp [untilCaret_single plain]
  | @next content ending rest lines plain ends full below ih =>
    cases number with
    | zero => rw [untilCaret_first plain (head?_ending ends rest), inLine plain]
    | succ number =>
      have kept : ending = ['\r'] → (untilCaret number character rest).head? ≠ some '\n' := by
        intro alone newline
        obtain ⟨inner, first⟩ := List.head?_eq_some_iff.mp newline
        have front := untilCaret_begins number character rest
        rw [first] at front
        obtain ⟨behind, rfl⟩ := front
        exact full alone rfl
      rw [untilCaret_past plain, untilCaret_ending ends full, untilCaret_past plain,
        untilCaret_ending ends kept, ih]

/-- For every text and position, the text before the caret begins the text and parts no carriage
return from its newline. It is made up of the lines above and of the characters of the line that lie
before the caret, at most all of them; where there are fewer lines it is the whole text. A position
further on has no less in front, and taking the text before the caret again changes nothing. -/
theorem untilPosition_wellBehaved (text : String) (position : Position) :
    (untilPosition text position).toList <+: text.toList ∧
    (∀ before behind, text.toList = before ++ '\r' :: '\n' :: behind →
      (untilPosition text position).toList ≠ before ++ ['\r']) ∧
    (∃ lines, Divides text.toList lines) ∧
    (∀ lines, Divides text.toList lines →
      (∀ line, lines[position.line]? = some line → (untilPosition text position).toList =
        (lines.take position.line).flatMap CaretLine.whole ++
          line.content.take position.character) ∧
      (lines.length ≤ position.line → untilPosition text position = text)) ∧
    (∀ farther : Position, position.line < farther.line ∨
      position.line = farther.line ∧ position.character ≤ farther.character →
        (untilPosition text position).toList <+: (untilPosition text farther).toList) ∧
    untilPosition (untilPosition text position) position = untilPosition text position := by
  simp only [untilPosition, String.toList_ofList]
  refine ⟨untilCaret_begins _ _ _, ?_, exists_divides _, ?_, ?_, ?_⟩
  · intro before behind pair
    exact untilCaret_ne_of_pair pair
  · intro lines divides
    rw [untilCaret_of_divides divides]
    refine ⟨?_, ?_⟩
    · intro line found
      rw [found]
    · intro few
      rw [List.getElem?_eq_none few]
      exact String.ofList_toList
  · intro farther upTo
    exact untilCaret_mono upTo _
  · rw [untilCaret_again]

/-- Lines that end in all three ways, the second of which is empty: behind its end the caret is in
front of the carriage return, and in the next line behind it. -/
theorem caret_between_line_ends :
    Divides "a\r\n\rbc\n".toList [⟨['a'], ['\r', '\n']⟩, ⟨[], ['\r']⟩, ⟨['b', 'c'], ['\n']⟩,
      ⟨[], []⟩] ∧
    untilPosition "a\r\n\rbc\n" ⟨1, 5⟩ = "a\r\n" ∧
    (untilPosition "a\r\n\rbc\n" ⟨1, 5⟩).toList <+:
      (untilPosition "a\r\n\rbc\n" ⟨2, 1⟩).toList := by
  obtain ⟨-, -, -, byLine, farther, -⟩ := untilPosition_wellBehaved "a\r\n\rbc\n" ⟨1, 5⟩
  have divides : Divides "a\r\n\rbc\n".toList [⟨['a'], ['\r', '\n']⟩, ⟨[], ['\r']⟩,
      ⟨['b', 'c'], ['\n']⟩, ⟨[], []⟩] := by
    have last : Divides [] [⟨[], []⟩] := .last (by simp)
    have third : Divides (['b', 'c'] ++ (['\n'] ++ [])) _ :=
      .next (by simp [isLineEnd]) (by simp) (by simp) last
    have second : Divides ([] ++ (['\r'] ++ ['b', 'c', '\n'])) _ :=
      .next (by simp) (by simp) (by simp) third
    have first : Divides (['a'] ++ (['\r', '\n'] ++ ['\r', 'b', 'c', '\n'])) _ :=
      .next (by simp [isLineEnd]) (by simp) (by simp) second
    exact first
  refine ⟨divides, ?_, farther ⟨2, 1⟩ (.inl (by decide))⟩
  exact String.toList_injective ((byLine _ divides).1 _ rfl)

end CypherAssist.Text
