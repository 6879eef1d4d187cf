import CypherAssist.Completion.Resolve
import CypherAssist.Proofs.Grammar.Agreement

/-! Keyword completion is exact. At the end of a text the keywords offered, by the first words of
their labels, are those that some reading of the tokens before the caret asks for next while no
name is open. -/
namespace CypherAssist.Completion
open Token Grammar Schema Text

variable {limits : Limits}

/-! ## The tokens before the caret -/

/-- The tokens of a numbered list that are below an index stand at its beginning. -/
theorem takeWhile_filter_numbered {tokens : List Token} {first stop : Nat} (keeps : Token → Bool)
    (numbered : tokens.map (·.index) = List.range' first tokens.length) :
    (tokens.filter keeps).takeWhile (fun token => token.index < stop) =
      (tokens.take (stop - first)).filter keeps := by
  induction tokens generalizing first with
  | nil => simp
  | cons token rest ih =>
    rw [List.map_cons, List.length_cons, List.range'_succ, List.cons.injEq] at numbered
    obtain ⟨here, later⟩ := numbered
    have others := ih later
    by_cases before : first < stop
    · rw [show stop - first = stop - (first + 1) + 1 by omega, List.take_succ_cons]
      by_cases kept : keeps token <;> simp [kept, here, before, others]
    · rw [show stop - (first + 1) = 0 by omega] at others
      rw [show stop - first = 0 by omega]
      by_cases kept : keeps token
      · simp [kept, here, before]
      · simpa [kept] using others

/-- The kinds of the visible tokens before the one under the caret, for a caret at the end. -/
def kindsBefore (stream : Stream) : List Kind :=
  (stream.body.dropLast.filter fun token => !token.isHidden).map (·.kind)

theorem kinds_tokensUntil (chars : List Char) :
    ((tokensUntil (caretIndex (Stream.ofText chars)) (Stream.ofText chars).toList).dropLast).map
      (·.kind) = kindsBefore (Stream.ofText chars) := by
  rw [dropLast_tokensUntil_ofText, tokensBefore, Stream.visible,
    takeWhile_filter_numbered _ (Stream.index_body chars), kindsBefore, List.dropLast_eq_take]
  rfl

theorem before_tokensUntil (chars : List Char) (preferred : List Rule) (ignored : List Kind) :
    Caret.before ⟨(tokensUntil (caretIndex (Stream.ofText chars))
      (Stream.ofText chars).toList).toArray, preferred, ignored⟩ =
        kindsBefore (Stream.ofText chars) := by
  rw [← kinds_tokensUntil, List.dropLast_eq_take]
  rfl

/-! ## Names hide no keyword -/

section
variable {tokens : List Token} {rule : Rule} {asked : Kind} {position target : Nat}

/-- Only keywords are reported. -/
theorem mem_ignored {kind : Kind} :
    kind ∉ ({} : Config).ignored ↔ ∃ keyword, kind = .keyword keyword := by
  rw [List.mem_filter, not_and]
  constructor
  · intro kept
    have category := kept (Kind.mem_all kind)
    cases kind with
    | keyword word => exact ⟨word, rfl⟩
    | symbol sign => cases sign <;> simp [Kind.category] at category
    | _ => simp [Kind.category] at category
  · rintro ⟨keyword, rfl⟩ -
    simp [Kind.category]

/-- A caret with the default tables. -/
def caretAmong (tokens : List Token) : Caret :=
  ⟨tokens.toArray, ({} : Config).preferred, ({} : Config).ignored⟩

theorem prefers_caretAmong : (caretAmong tokens).prefers rule ↔ rule ∈ ({} : Config).preferred :=
  List.contains_iff_mem

/-- No path goes through a plain name outside of preferred rules. -/
theorem not_meets_symbolicNameString :
    ¬ Meets cypher (caretAmong tokens).Admits input (.reference .symbolicNameString) position
      target asked := by
  intro meets
  obtain ⟨option, member, inside⟩ := meets_choice_iff.mp ((meets_reference_iff rfl).mp meets).2
  rcases List.mem_pair.mp member with rfl | rfl
  all_goals
    refine ((meets_reference_iff rfl).mp inside).1 (prefers_caretAmong.mpr ?_)
    decide

/-- Outside of names, a parameter that starts before the caret asks only for the number behind its
sign. -/
theorem number_of_meets_parameter (earlier : position < (caretAmong tokens).position)
    (meets : Meets cypher (caretAmong tokens).Admits (caretAmong tokens).before
      (.reference .parameter) position (caretAmong tokens).position asked) :
    asked = .integer ∧ (caretAmong tokens).before.getLast? = some (.symbol .dollar) := by
  have inside := ((meets_reference_iff rfl).mp meets).2
  rcases meets_cons_iff.mp inside with sign | ⟨middle, sign, value⟩
  · cases sign
    exact absurd earlier (Nat.lt_irrefl _)
  · have number : asked = .integer ∧ middle = (caretAmong tokens).position := by
      rcases meets_cons_iff.mp value with choice | ⟨_, _, nothing⟩
      · obtain ⟨option, member, inside⟩ := meets_choice_iff.mp choice
        rcases List.mem_pair.mp member with rfl | rfl
        · exact absurd inside not_meets_symbolicNameString
        · cases inside
          exact ⟨rfl, rfl⟩
      · cases nothing
    refine ⟨number.1, ?_⟩
    cases sign with
    | token found =>
      rw [List.getLast?_eq_getElem?, Caret.length_before, ← number.2]
      exact found

/-- The parts of a name with dots between them. -/
def nameParts : Element :=
  .sequence [.reference .symbolicNameString,
    .repeated (.sequence [.token (.symbol .dot), .reference .symbolicNameString])]

/-- Where a name of several parts is open at the caret, it asks for a dot behind the parts before
the caret, or else it is a parameter that asks for its number. -/
theorem parts_or_number (earlier : position < (caretAmong tokens).position)
    (meets : Meets cypher (caretAmong tokens).Admits (caretAmong tokens).before
      (definition .symbolicAliasName) position (caretAmong tokens).position asked) :
    asked = .symbol .dot ∧ Spans cypher (caretAmong tokens).before nameParts position
        (caretAmong tokens).position ∨
      asked = .integer ∧ (caretAmong tokens).before.getLast? = some (.symbol .dollar) := by
  obtain ⟨option, member, inside⟩ := meets_choice_iff.mp meets
  rcases List.mem_pair.mp member with rfl | rfl
  · rcases meets_cons_iff.mp inside with first | ⟨middle, first, others⟩
    · exact absurd first not_meets_symbolicNameString
    · rcases meets_cons_iff.mp others with part | ⟨_, _, nothing⟩
      · obtain ⟨stop, passed, next⟩ := meets_repeated_iff.mp part
        rcases meets_cons_iff.mp next with dot | ⟨_, _, rest⟩
        · cases dot
          exact .inl ⟨rfl, .sequence first (.sequence passed .empty)⟩
        · rcases meets_cons_iff.mp rest with name | ⟨_, _, nothing⟩
          · exact absurd name not_meets_symbolicNameString
          · cases nothing
      · cases nothing
  · exact .inr (number_of_meets_parameter earlier inside)

/-- A name of several parts goes on with a dot of its own, or else with the number of a
parameter. -/
theorem dot_or_number (earlier : position < (caretAmong tokens).position)
    (meets : Meets cypher (caretAmong tokens).Admits (caretAmong tokens).before
      (definition .symbolicAliasName) position (caretAmong tokens).position asked) :
    asked = .symbol .dot ∧ Tells cypher (caretAmong tokens) .symbolicAliasName
        (some .symbolicAliasName) (definition .symbolicAliasName) position ∨
      asked = .integer ∧ (caretAmong tokens).before.getLast? = some (.symbol .dollar) := by
  rcases parts_or_number earlier meets with ⟨same, parts⟩ | number
  · obtain ⟨middle, first, others⟩ := spans_cons_iff.mp parts
    obtain ⟨_, passed, nothing⟩ := spans_cons_iff.mp others
    cases nothing
    have preferred : (caretAmong tokens).prefers .symbolicAliasName :=
      prefers_caretAmong.mpr (by decide)
    exact .inl ⟨same, .choice (List.mem_cons_self ..)
      (.tail first (.head (.repeated passed (.head (.token preferred)))))⟩
  · exact .inr number

/-- The rules preferred by default are single tokens, but for the name of several parts. -/
theorem position_eq_of_preferred {admitted : Rule → Prop} {input : List Kind} {asked : Kind}
    (preferred : rule ∈ ({} : Config).preferred) (single : rule ≠ .symbolicAliasName)
    (meets : Meets cypher admitted input (definition rule) position target asked) :
    position = target := by
  simp only [List.mem_cons, List.not_mem_nil, or_false] at preferred
  rcases preferred with rfl | rfl | rfl | rfl | rfl
  · exact start_eq_of_tokens (fun _ => exists_token_of_mem_names) meets
  · cases meets
    rfl
  · exact start_eq_of_tokens (by simp) meets
  · refine start_eq_of_tokens (fun option member => ?_) meets
    rcases List.mem_cons.mp member with rfl | member
    · exact ⟨_, rfl⟩
    · exact exists_token_of_mem_names member
  · exact absurd rfl single

/-- A rule preferred by default that is open at the caret asks for a dot or a number, outside of the
names in it. -/
theorem dot_or_number_of_preferred (preferred : rule ∈ ({} : Config).preferred)
    (earlier : position < (caretAmong tokens).position)
    (meets : Meets cypher (caretAmong tokens).Admits (caretAmong tokens).before (definition rule)
      position (caretAmong tokens).position asked) :
    asked = .symbol .dot ∨ asked = .integer := by
  by_cases several : rule = .symbolicAliasName
  · subst several
    exact (dot_or_number earlier meets).imp And.left And.left
  · exact absurd (position_eq_of_preferred preferred several meets) (Nat.ne_of_lt earlier)

/-- The rules preferred by default hide no keyword: all but one are single tokens, and the last asks
for no keyword outside of names. -/
theorem cypher_discreet (tokens : Array Token) :
    Discreet cypher ⟨tokens, ({} : Config).preferred, ({} : Config).ignored⟩ where
  solid rule preferred nothing := by
    have solid : ∀ rule ∈ ({} : Config).preferred, ¬ vanishes rule := by decide
    exact solid rule (List.contains_iff_mem.mp preferred)
      (canVanish_of_word cypher_vanishing nothing rfl)
  quiet rule element position preferred defined earlier := by
    cases defined
    refine Set.eq_empty_of_forall_notMem ?_
    rintro kind ⟨reported, meets⟩
    obtain ⟨keyword, rfl⟩ := mem_ignored.mp fun ignored =>
      Bool.eq_false_iff.mp reported (List.contains_iff_mem.mpr ignored)
    rcases @dot_or_number_of_preferred tokens.toList _ _ _ (List.contains_iff_mem.mp preferred)
      earlier meets with sign | sign <;> cases sign

end

/-! ## Labels -/

/-- The part of a label before its first blank. -/
def firstWord (label : WideText) : WideText := label.takeWhile (· != .char ' ')

/-- The first words of the keywords that are offered. No opinion offers none. -/
def keywordsOffered (suggestions : Suggestions) : Set WideText :=
  {word | ∃ item ∈ suggestions.getD [], item.kind = .keyword ∧ firstWord item.label = word}

/-- Keywords as they are spelled. -/
def spellings (keywords : Set Keyword) : Set WideText :=
  {word | ∃ keyword ∈ keywords, .ofString keyword.spelling = word}

theorem kind_of_mem_items {names : List WideText} {kind : ItemKind} {item : Item}
    (member : item ∈ items names kind) : item.kind = kind := by
  obtain ⟨name, -, rfl⟩ := List.mem_map.mp member
  rfl

theorem kind_of_mem_structural {document : Document} {catalog : Catalog} {found : List Item}
    {item : Item} (offered : structural document catalog = some found) (member : item ∈ found) :
    item.kind ≠ .keyword := by
  unfold structural at offered
  split at offered
  · cases offered
  split at offered
  · cases offered
    cases member
  split at offered
  · cases offered
  simp only at offered
  split at offered
  · cases offered
    simp [kind_of_mem_items member]
  split at offered
  · cases offered
    simp [kind_of_mem_items member]
  · split at offered
    · cases offered
      simp [kind_of_mem_items member]
    · cases offered

/-- The syntax tree offers no keywords. -/
theorem kind_of_mem_fromTree {document : Document} {catalog : Catalog} {item : Item}
    (member : item ∈ (fromTree limits document catalog).getD []) : item.kind ≠ .keyword := by
  cases offered : fromTree limits document catalog with
  | none => simp [offered] at member
  | some found =>
    rw [offered, Option.getD_some] at member
    rw [fromTree, Option.orElse_eq_orElse, Option.orElse_eq_or, Option.or_eq_some_iff] at offered
    rcases offered with first | ⟨-, second⟩
    · exact kind_of_mem_structural first member
    · simp only [structuralFilled] at second
      split at second
      · cases second
      split at second
      · cases second
        simp [kind_of_mem_items member]
      · cases second

theorem kind_of_mem_classifyName {enclosing : List Rule} {catalog : Catalog} {item : Item}
    (member : item ∈ (classifyName enclosing catalog).items) : item.kind ≠ .keyword := by
  unfold classifyName at member
  split at member
  · simp [kind_of_mem_items member]
  split at member
  · simp [kind_of_mem_items member]
  split at member
  · simp [kind_of_mem_items member]
  split at member
  · simp [kind_of_mem_items member]
  · cases member

theorem kind_of_mem_classifyAlias {candidate : RuleCandidate} {catalog : Catalog}
    {tokens : List Token} {item : Item}
    (member : item ∈ (classifyAlias candidate catalog tokens).items) : item.kind ≠ .keyword := by
  unfold classifyAlias at member
  split at member
  · cases member
  split at member
  · cases member
  split at member
  · simp [kind_of_mem_items member]
  · simp [kind_of_mem_items member]

/-- Names offer no keywords. -/
theorem kind_of_mem_ruleItems {candidates : List RuleCandidate} {catalog : Catalog}
    {tokens : List Token} {item : Item} (member : item ∈ ruleItems candidates catalog tokens) :
    item.kind ≠ .keyword := by
  obtain ⟨candidate, -, inside⟩ := List.mem_flatMap.mp member
  unfold classify at inside
  split at inside
  · exact kind_of_mem_classifyName inside
  split at inside
  · exact kind_of_mem_classifyAlias inside
  · cases inside

theorem firstWord_append {word : String} (whole : ' ' ∉ word.toList) (more : WideText) :
    firstWord (WideText.ofString word ++ more) = WideText.ofString word ++ firstWord more := by
  refine List.takeWhile_append_of_pos fun point member => ?_
  obtain ⟨c, inside, rfl⟩ := List.mem_map.mp member
  simp only [bne_iff_ne, ne_eq, Point.char.injEq]
  rintro rfl
  exact whole inside

/-- Every keyword is offered at least once, and its labels start with its spelling. -/
theorem firstWord_labels {candidate : TokenCandidate} {keyword : Keyword}
    (same : candidate.kind = .keyword keyword) :
    labels candidate Kind.display? ≠ [] ∧
      ∀ label ∈ labels candidate Kind.display?,
        firstWord (.ofString label) = .ofString keyword.spelling := by
  have checked : ∀ word ∈ Keyword.all, ' ' ∉ word.spelling.toList := by decide +kernel
  have whole := checked keyword (Keyword.mem_all keyword)
  have single : firstWord (.ofString keyword.spelling) = .ofString keyword.spelling := by
    simpa [firstWord] using firstWord_append whole []
  have joined (following : String) :
      firstWord (.ofString (keyword.spelling ++ " " ++ following)) =
        .ofString keyword.spelling := by
    have split : WideText.ofString (keyword.spelling ++ " " ++ following) =
        WideText.ofString keyword.spelling ++ .char ' ' :: WideText.ofString following := by
      simp [WideText.ofString, WideText.ofChars]
    rw [split, firstWord_append whole]
    simp [firstWord]
  simp only [labels, same, Kind.display?]
  split
  · simp [single]
  split
  · simp [single, joined]
  · simp [joined]

/-- The keyword items for token candidates start with the spellings of their keywords. -/
theorem keywordsOffered_tokenItems {candidates : List TokenCandidate}
    (keywords : ∀ candidate ∈ candidates, ∃ keyword, candidate.kind = .keyword keyword) :
    keywordsOffered (some (tokenItems candidates Kind.display?)) =
      spellings {keyword | ∃ candidate ∈ candidates, candidate.kind = .keyword keyword} := by
  ext word
  simp only [keywordsOffered, spellings, Option.getD_some, tokenItems, items, Set.mem_ofPred_eq]
  constructor
  · rintro ⟨item, member, -, rfl⟩
    obtain ⟨candidate, inside, listed⟩ := List.mem_flatMap.mp member
    obtain ⟨keyword, same⟩ := keywords candidate inside
    simp only [List.map_map, List.mem_map, Function.comp_apply] at listed
    obtain ⟨label, offered, rfl⟩ := listed
    exact ⟨keyword, ⟨candidate, inside, same⟩, ((firstWord_labels same).2 label offered).symm⟩
  · rintro ⟨keyword, ⟨candidate, inside, same⟩, rfl⟩
    obtain ⟨some, starts⟩ := firstWord_labels same
    obtain ⟨label, offered⟩ := List.exists_mem_of_ne_nil _ some
    refine ⟨⟨.ofString label, .keyword⟩, List.mem_flatMap.mpr ⟨candidate, inside, ?_⟩, rfl,
      starts label offered⟩
    simp only [List.map_map, List.mem_map, Function.comp_apply]
    exact ⟨label, offered, rfl⟩

/-! ## Completion at the end of a text -/

/-- The walk to the end of a text. -/
def candidatesOf (limits : Limits) (stream : Stream) : Except Obstacle Candidates :=
  collect cypher Grammar.start stream.toList (caretIndex stream) ({} : Config).preferred
    ({} : Config).ignored limits.collecting

/-- Some path through the grammar over the tokens before the caret arrives at the keyword while no
preferred rule is open. -/
def Awaited (stream : Stream) (keyword : Keyword) : Prop :=
  Awaits cypher (· ∉ ({} : Config).preferred) (.reference Grammar.start) (kindsBefore stream)
    (.keyword keyword)

/-- Cypher defines every rule, so a walk fails only for want of depth. Otherwise its candidates are
the keywords that a reading asks for. -/
theorem candidatesOf_exact (limits : Limits) (chars : List Char) :
    match candidatesOf limits (Stream.ofText chars) with
    | .error obstacle => obstacle = .tooDeep ∧
        limits.collecting < Rule.all.length * ((kindsBefore (Stream.ofText chars)).length + 1)
    | .ok candidates => ∀ kind, (∃ candidate ∈ candidates.tokens, candidate.kind = kind) ↔
        ∃ keyword, kind = .keyword keyword ∧ Awaited (Stream.ofText chars) keyword := by
  have exact := collect_tokens cypher_leftRecursionFree Grammar.start (Stream.ofText chars).toList
    (caretIndex (Stream.ofText chars)) ({} : Config).preferred ({} : Config).ignored
    limits.collecting (tokensUntil_ofText_ne_nil _ _) (cypher_discreet _)
  have size := congrArg List.length (kinds_tokensUntil chars)
  rw [List.length_map, List.length_dropLast] at size
  rw [candidatesOf]
  split
  · rename_i obstacle failed
    simp only [failed, size] at exact
    obtain ⟨same, deep⟩ := tooDeep_of_excuse cypher_closed rfl exact
    exact ⟨same, Nat.lt_of_le_of_lt deep (burden_lt cypher_leftRecursionFree _ _ 0)⟩
  · rename_i candidates found
    simp only [found, kinds_tokensUntil] at exact
    intro kind
    rw [exact kind, mem_ignored, ← exists_and_right]
    refine exists_congr fun keyword => and_congr_right ?_
    rintro rfl
    exact Iff.rfl

/-- The walk gets through a text of few tokens. -/
theorem exists_candidates_of_short {chars : List Char}
    (short : Rule.all.length * ((kindsBefore (Stream.ofText chars)).length + 1) ≤
      limits.collecting) :
    ∃ candidates, candidatesOf limits (Stream.ofText chars) = .ok candidates := by
  have exact := candidatesOf_exact limits chars
  cases ran : candidatesOf limits (Stream.ofText chars) with
  | ok candidates => exact ⟨candidates, rfl⟩
  | error obstacle =>
    simp only [ran] at exact
    exact absurd exact.2 (Nat.not_lt.mpr short)

theorem candidatesAt_parse (text : String) :
    candidatesAt limits (Document.parse limits text)
      (caretIndex (Document.parse limits text).stream) {} =
      match candidatesOf limits (Stream.ofText text.toList) with
      | .ok candidates => candidates
      | .error _ => {} := rfl

/-- Whatever else is offered, the keywords are those of the token candidates. -/
theorem keywordsOffered_of_candidates (document : Document) (catalog : Catalog)
    {candidates : Candidates}
    (found : candidatesAt limits document (caretIndex document.stream) {} = candidates)
    (keywords : ∀ candidate ∈ candidates.tokens, ∃ keyword, candidate.kind = .keyword keyword) :
    keywordsOffered (fromGrammar limits document catalog {} <|> fromTree limits document catalog) =
      spellings {keyword | ∃ candidate ∈ candidates.tokens, candidate.kind = .keyword keyword} := by
  rw [← keywordsOffered_tokenItems keywords, fromGrammar, found]
  ext word
  simp only
  split
  · rename_i none
    obtain ⟨-, noTokens⟩ := by simpa using none
    simp only [Option.orElse_eq_orElse, Option.orElse_eq_or, Option.none_or, keywordsOffered,
      Set.mem_ofPred_eq, noTokens, tokenItems, List.flatMap_nil, Option.getD_some]
    constructor
    · rintro ⟨item, member, offered, -⟩
      exact absurd offered (kind_of_mem_fromTree member)
    · rintro ⟨item, member, -⟩
      cases member
  · simp only [Option.orElse_eq_orElse, Option.orElse_eq_or, Option.some_or, keywordsOffered,
      Set.mem_ofPred_eq, Option.getD_some, List.mem_append]
    constructor
    · rintro ⟨item, inRules | inTokens, offered, starts⟩
      · exact absurd offered (kind_of_mem_ruleItems inRules)
      · exact ⟨item, inTokens, offered, starts⟩
    · rintro ⟨item, inTokens, offered, starts⟩
      exact ⟨item, .inr inTokens, offered, starts⟩

/-- At the end of a text that is read to its end and not nested too deeply, completion offers
exactly the keywords that some path over the tokens before the caret arrives at while no name is
open. -/
theorem keywords_at_end (text : String) (catalog : Catalog)
    (whole : (Stream.ofText text.toList).isWhole)
    (shallow : candidatesOf limits (Stream.ofText text.toList) ≠ .error .tooDeep) :
    keywordsOffered (atEnd limits text catalog false) =
      spellings {keyword | Awaited (Stream.ofText text.toList) keyword} := by
  have exact := candidatesOf_exact limits text.toList
  have stream : (Document.parse limits text).stream = Stream.ofText text.toList := rfl
  cases ran : candidatesOf limits (Stream.ofText text.toList) with
  | error obstacle =>
    simp only [ran] at exact
    exact absurd (exact.1 ▸ ran) shallow
  | ok candidates =>
    simp only [ran] at exact
    have found : candidatesAt limits (Document.parse limits text)
        (caretIndex (Document.parse limits text).stream) {} =
        candidates := by
      rw [candidatesAt, stream]
      rw [candidatesOf] at ran
      rw [ran]
    have keywords (candidate) (member : candidate ∈ candidates.tokens) :
        ∃ keyword, candidate.kind = .keyword keyword := by
      obtain ⟨keyword, same, -⟩ := (exact candidate.kind).mp ⟨candidate, member, rfl⟩
      exact ⟨keyword, same⟩
    have offered := keywordsOffered_of_candidates
        (Document.parse limits text) catalog found keywords
    simp only [atEnd, stream, whole, Bool.not_true, Bool.false_eq_true, ↓reduceIte, offered, exact,
      Kind.keyword.injEq, exists_eq_left']

/-- Behind a name that is also a keyword, the text may go on as behind any name. -/
theorem order_offered_behind_name :
    (Stream.ofText "RETURN case ".toList).isWhole ∧
      candidatesOf ⟨3000, 3000⟩ (Stream.ofText "RETURN case ".toList) ≠ .error .tooDeep ∧
      WideText.ofString "ORDER" ∈ keywordsOffered (atEnd ⟨3000, 3000⟩ "RETURN case " {} false) := by
  have whole : (Stream.ofText "RETURN case ".toList).isWhole := by decide +kernel
  have before : kindsBefore (Stream.ofText "RETURN case ".toList) =
      [.keyword .RETURN, .keyword .CASE] := by decide +kernel
  have shallow : candidatesOf ⟨3000, 3000⟩ (Stream.ofText "RETURN case ".toList) ≠
      .error .tooDeep := by
    intro deep
    have exact := candidatesOf_exact ⟨3000, 3000⟩ "RETURN case ".toList
    simp only [deep, before] at exact
    exact absurd exact.2 (by decide)
  have continues (rule : Rule) (seen : List Kind) (named : rule ∉ ({} : Config).preferred)
      (inside : Awaits cypher (· ∉ ({} : Config).preferred) (definition rule) seen
        (.keyword .ORDER)) :
      Awaits cypher (· ∉ ({} : Config).preferred) (.reference rule) seen (.keyword .ORDER) :=
    .reference named rfl inside
  have items : Word cypher (.reference .returnItems) [.keyword .CASE] := by decide +kernel
  have order := continues .orderBy [] (by decide) (.head .token)
  have body := continues .returnBody [.keyword .CASE] (by decide)
    (.tail .skipped (.tail items (.head (.optional order))))
  have clause := continues .returnClause [.keyword .RETURN, .keyword .CASE] (by decide)
    (.tail .token (.head body))
  have anyClause := continues .clause _ (by decide) (.choice (by simp) clause)
  have query := continues .singleQuery _ (by decide) (.head anyClause)
  have regular := continues .regularQuery _ (by decide) (.head query)
  have statement := continues .statement _ (by decide) (.choice (by simp) regular)
  have document := continues .statements _ (by decide) (.head statement)
  have awaited : Awaited (Stream.ofText "RETURN case ".toList) .ORDER := by
    rw [Awaited, before]
    exact document
  rw [keywords_at_end "RETURN case " {} whole shallow]
  exact ⟨whole, shallow, .ORDER, awaited, rfl⟩

end CypherAssist.Completion
