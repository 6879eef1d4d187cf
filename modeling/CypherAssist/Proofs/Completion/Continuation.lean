import CypherAssist.Proofs.Completion.Keywords
import CypherAssist.Proofs.Document.Parsed
import CypherAssist.Proofs.Grammar.FollowUp
import CypherAssist.Proofs.Grammar.Invariant
import CypherAssist.Proofs.Token.Phrase

/-! Accepting an offered keyword. A label is read back as the keyword it was made of and those that
come with it, and behind the tokens before the caret these go on with the text: what is there then
is a document or the beginning of one. -/
namespace CypherAssist.Completion
open Token Grammar Schema Text

variable {limits : Limits}

/-- A label is read to its end, as these kinds of token with blanks between them. -/
structure Spells (label : String) (kinds : List Kind) : Prop where
  closed : (Stream.ofText label.toList).unterminated? = none
  whole : (Stream.ofText label.toList).last.lexeme = []
  tokens : ((Stream.ofText label.toList).body.filter fun token => token.kind ≠ .blank).map
    (·.kind) = kinds

/-- Kinds of token make up a document or the beginning of one. A parser finds a reading of all of
them, complete or cut short, if it is deep enough to get through, and no text with these visible
tokens holds one that does not fit. -/
structure Fits (kinds : List Kind) : Prop where
  viable : Viable cypher Grammar.start kinds
  read : ∀ depth found state,
    parseFrom cypher kinds.toArray depth Grammar.start 0 = .ok (found, state) →
      found.reaches (.upTo kinds.length) ∨ found.reaches .cut
  deep : ∀ depth, fullDepth kinds.length ≤ depth → ∃ found state,
    parseFrom cypher kinds.toArray depth Grammar.start 0 = .ok (found, state)
  silent : ∀ limits text, Document.visibleKinds (Stream.ofText text.toList) = kinds →
    ∀ issue ∈ (Document.parse limits text).issues, ∀ seen expected,
      issue.problem ≠ .unexpected seen expected

/-! ## What fits -/

theorem fits_of_viable {kinds : List Kind} (viable : Viable cypher Grammar.start kinds) :
    Fits kinds where
  viable := viable
  read depth found state ran := by
    rw [(performs_of_parsed cypher_leftRecursionFree ran).1]
    exact viable_iff_reading.mp viable
  deep depth enough :=
    parseFrom_succeeds cypher_leftRecursionFree cypher_closed rfl (by simpa using enough) 0
  silent limits text same := by
    have begun : Viable cypher Grammar.start
        (Document.visibleKinds (Document.parse limits text).stream) := same ▸ viable
    exact Document.not_unexpected_of_viable begun

/-! ## Labels -/

/-- What a label of a candidate stands for: the bare keyword for itself where the rest may be left
out, any other label for the keyword and all that comes with it. -/
def accepted (candidate : TokenCandidate) (label : String) : List Kind :=
  if candidate.isOptional ∧ candidate.kind.display? = some label then [candidate.kind]
  else candidate.kind :: candidate.followUp

theorem toList_intercalate_spellings (keywords : List Keyword) :
    (" ".intercalate ((keywords.map Kind.keyword).filterMap Kind.display?)).toList =
      Keyword.phrase keywords := by
  have names : (keywords.map Kind.keyword).filterMap Kind.display? =
      keywords.map Keyword.spelling := by
    induction keywords with
    | nil => rfl
    | cons keyword rest ih => simp [Kind.display?, ih]
  rw [names, String.toList_intercalate, List.map_map]
  rfl

/-- A label of a keyword is the keyword alone, where nothing comes with it or the rest may be left
out, or else the phrase of the keyword and those that come with it. -/
theorem spelled_of_mem_labels {candidate : TokenCandidate} {keyword : Keyword}
    {keywords : List Keyword} {label : String} (same : candidate.kind = .keyword keyword)
    (follows : candidate.followUp = keywords.map .keyword)
    (listed : label ∈ labels candidate Kind.display?) :
    label = keyword.spelling ∧ (candidate.isOptional ∨ keywords = []) ∨
      keywords ≠ [] ∧ label.toList = Keyword.phrase (keyword :: keywords) := by
  have spelled := toList_intercalate_spellings keywords
  unfold labels at listed
  rw [same, follows] at listed
  generalize " ".intercalate ((keywords.map Kind.keyword).filterMap Kind.display?) = following
    at listed spelled
  simp only [Kind.display?] at listed
  cases keywords with
  | nil =>
    have none : following.isEmpty := by simpa [Keyword.phrase] using spelled
    rw [if_pos none, List.mem_singleton] at listed
    exact .inl ⟨listed, .inr rfl⟩
  | cons next more =>
    have some : ¬ following.isEmpty := by
      intro empty
      rw [String.isEmpty_iff.mp empty] at spelled
      obtain ⟨c, rest, starts, -⟩ := Keyword.phrase_cons next more
      simp [starts] at spelled
    have phrased : (keyword.spelling ++ " " ++ following).toList =
        Keyword.phrase (keyword :: next :: more) := by
      simp [spelled, Keyword.phrase, List.intercalate_cons_cons]
    rw [if_neg some] at listed
    split at listed
    · rename_i optional
      rcases List.mem_pair.mp listed with alone | whole
      · exact .inl ⟨alone, .inl optional⟩
      · exact .inr ⟨List.cons_ne_nil _ _, whole ▸ phrased⟩
    · exact .inr ⟨List.cons_ne_nil _ _, List.mem_singleton.mp listed ▸ phrased⟩

/-- A phrase of several keywords is longer than the first of them. -/
theorem spelling_ne_of_phrase {keyword : Keyword} {keywords : List Keyword} {label : String}
    (some : keywords ≠ []) (phrased : label.toList = Keyword.phrase (keyword :: keywords)) :
    keyword.spelling ≠ label := by
  intro equal
  obtain ⟨next, more, rfl⟩ := List.exists_cons_of_ne_nil some
  have lengths := congrArg List.length (equal ▸ phrased)
  simp [Keyword.phrase, List.intercalate_cons_cons] at lengths

/-- A label is the phrase of the keywords that it stands for. -/
theorem phrase_of_mem_labels {candidate : TokenCandidate} {keyword : Keyword}
    {keywords : List Keyword} {label : String} (same : candidate.kind = .keyword keyword)
    (follows : candidate.followUp = keywords.map .keyword)
    (listed : label ∈ labels candidate Kind.display?) :
    ∃ words : List Keyword, accepted candidate label = words.map .keyword ∧
      label.toList = Keyword.phrase words := by
  rcases spelled_of_mem_labels same follows listed with ⟨alone, short⟩ | ⟨some, phrased⟩
  · refine ⟨[keyword], ?_, by simp [alone, Keyword.phrase, List.intercalate]⟩
    rcases short with optional | rfl
    · simp [accepted, optional, same, alone, Kind.display?]
    · simp [accepted, same, follows]
  · have longer := spelling_ne_of_phrase some phrased
    exact ⟨keyword :: keywords, by simp [accepted, same, follows, Kind.display?, longer], phrased⟩

theorem spells_phrase {label : String} {words : List Keyword}
    (same : label.toList = Keyword.phrase words) : Spells label (words.map .keyword) := by
  obtain ⟨tokens, whole, closed⟩ := Keyword.readFrom_phrase words {} 0
  rw [← same] at tokens whole closed
  exact ⟨closed, whole, tokens⟩

/-! ## Completion -/

theorem mem_getD_orElse {first second : Suggestions} {item : Item}
    (member : item ∈ (first <|> second).getD []) :
    item ∈ first.getD [] ∨ item ∈ second.getD [] := by
  cases first with
  | none => exact .inr member
  | some items => exact .inl member

theorem exists_keywords {kinds : List Kind}
    (wanted : ∀ kind ∈ kinds, kind ∉ ({} : Config).ignored) :
    ∃ keywords : List Keyword, kinds = keywords.map .keyword := by
  induction kinds with
  | nil => exact ⟨[], rfl⟩
  | cons kind rest ih =>
    obtain ⟨keyword, rfl⟩ := mem_ignored.mp (wanted kind (by simp))
    obtain ⟨keywords, rfl⟩ := ih fun other member => wanted other (List.mem_cons_of_mem _ member)
    exact ⟨keyword :: keywords, rfl⟩

/-- Whichever label is taken, it goes on like the candidate. -/
theorem viable_accepted {before : List Kind} {candidate : TokenCandidate}
    (viable : Viable cypher Grammar.start (before ++ candidate.kind :: candidate.followUp))
    (label : String) : Viable cypher Grammar.start (before ++ accepted candidate label) := by
  unfold accepted
  split
  · obtain ⟨more, word⟩ := viable
    exact ⟨candidate.followUp ++ more, by simpa using word⟩
  · exact viable

/-- A keyword that is offered, in whichever order the sources are asked, is that of a candidate. -/
theorem mem_tokenItems_of_keyword {text : String} {catalog : Catalog} {preferTree : Bool}
    {item : Item} (member : item ∈ (atEnd limits text catalog preferTree).getD [])
    (keyword : item.kind = .keyword) :
    ∃ candidates, candidatesOf limits (Stream.ofText text.toList) = .ok candidates ∧
      item ∈ tokenItems candidates.tokens Kind.display? := by
  have grammar (inside : item ∈ (fromGrammar limits (Document.parse limits text) catalog).getD []) :
      ∃ candidates, candidatesOf limits (Stream.ofText text.toList) = .ok candidates ∧
        item ∈ tokenItems candidates.tokens Kind.display? := by
    simp only [fromGrammar] at inside
    split at inside
    · cases inside
    · rcases List.mem_append.mp inside with inRules | inTokens
      · exact absurd keyword (kind_of_mem_ruleItems inRules)
      · rw [candidatesAt_parse] at inTokens
        split at inTokens
        · rename_i candidates ran
          exact ⟨candidates, ran, inTokens⟩
        · cases inTokens
  simp only [atEnd] at member
  split at member
  · cases member
  · split at member
    · rcases mem_getD_orElse member with inTree | inGrammar
      · exact absurd keyword (kind_of_mem_fromTree inTree)
      · exact grammar inGrammar
    · rcases mem_getD_orElse member with inGrammar | inTree
      · exact grammar inGrammar
      · exact absurd keyword (kind_of_mem_fromTree inTree)

/-- The candidate of the first token that the grammar mentions. -/
def creating : TokenCandidate := ⟨.keyword .CREATE, [.keyword .OR, .keyword .REPLACE], true⟩

/-- Where nothing stands before the caret, the walk gets through and finds first what creates a
database or an alias: the path through the commands is walked before that through the clauses. -/
theorem creating_found_first {chars : List Char}
    (nothing : kindsBefore (Stream.ofText chars) = [])
    (deep : Rule.all.length ≤ limits.collecting) :
    ∃ candidates, candidatesOf limits (Stream.ofText chars) = .ok candidates ∧
      [creating] <+: candidates.tokens := by
  have short : Rule.all.length * ((kindsBefore (Stream.ofText chars)).length + 1) ≤
      limits.collecting := by simpa [nothing] using deep
  obtain ⟨candidates, ran⟩ := exists_candidates_of_short short
  refine ⟨candidates, ran, ?_⟩
  have size := congrArg List.length (kinds_tokensUntil chars)
  rw [nothing, List.length_map, List.length_dropLast] at size
  obtain ⟨_, _, walked, rfl⟩ :=
    (walk_of_collect ran).resolve_left fun none => tokensUntil_ofText_ne_nil _ _ none.1
  obtain ⟨depth, enough⟩ : ∃ depth, limits.collecting = depth + 4 :=
    Nat.exists_eq_add_of_le' ((by decide : 4 ≤ Rule.all.length).trans deep)
  rw [enough] at walked
  have leads : Leads creating [] (walkRule cypher
      ⟨(tokensUntil (caretIndex (Stream.ofText chars)) (Stream.ofText chars).toList).toArray,
        ({} : Config).preferred, ({} : Config).ignored⟩ (depth + 4) Grammar.start 0 []) := by
    have clear : ∀ rule ∈ [Rule.createCommand, .command, .statement, .statements],
        rule ∉ ({} : Config).preferred := by decide
    refine leads_rule rfl (by decide) rfl (leads_head ?_)
    refine leads_rule rfl (by decide) rfl (leads_option ?_)
    refine leads_rule rfl (by decide) rfl (leads_option ?_)
    refine leads_rule rfl (by decide) rfl (leads_head ?_)
    refine leads_token (fun frame member => ?_) (mem_ignored.mpr ⟨_, rfl⟩) size
    have opened : frame.rule ∈ List.map Frame.rule _ := List.mem_map_of_mem member
    rw [Caret.Admits, Caret.prefers, List.contains_iff_mem]
    exact clear frame.rule opened
  exact leads _ _ _ rfl (by simp) walked

/-- At the start of a document each label of the first candidate is offered. -/
theorem offered_at_start (deep : Rule.all.length ≤ limits.collecting) {label : String}
    (listed : label ∈ labels creating Kind.display?) :
    ∃ candidates, candidatesOf limits (Stream.ofText []) = .ok candidates ∧
      creating ∈ candidates.tokens ∧
      (⟨.ofString label, .keyword⟩ : Item) ∈ (atPosition limits "" ⟨0, 0⟩ {} false).getD [] := by
  have nothing : kindsBefore (Stream.ofText []) = [] := by decide +kernel
  obtain ⟨candidates, ran, first⟩ := creating_found_first nothing deep
  have member : creating ∈ candidates.tokens := first.subset (by simp)
  have some : candidates.tokens ≠ [] := List.ne_nil_of_mem member
  refine ⟨candidates, ran, member, ?_⟩
  have whole : (Document.parse limits "").stream.isWhole := (by decide +kernel :
    (Stream.ofText "".toList).isWhole = true)
  have found : candidatesAt limits (Document.parse limits "")
      (caretIndex (Document.parse limits "").stream) {} = candidates := by
    rw [candidatesAt_parse]
    simp [ran]
  have item : (⟨.ofString label, .keyword⟩ : Item) ∈ tokenItems candidates.tokens Kind.display? :=
    List.mem_flatMap.mpr ⟨creating, member, List.mem_map_of_mem (List.mem_map_of_mem listed)⟩
  have cut : untilPosition "" ⟨0, 0⟩ = "" := by decide +kernel
  simp [atPosition, cut, atEnd, whole, fromGrammar, found, some, item]

/-- A keyword offered at a place, whatever the schema and the source asked first, is the label of a
candidate there. Read back, it is the keyword of the candidate and those that come with it, or the
bare keyword where they may be left out; and these go on with what stands before the caret. -/
theorem accepted_keyword_fits (text : String) (position : Position) (catalog : Catalog)
    (preferTree : Bool) (item : Item)
    (offered : item ∈ (atPosition limits text position catalog preferTree).getD [])
    (keyword : item.kind = .keyword) :
    ∃ candidates candidate label,
      candidatesOf limits (Stream.ofText (untilPosition text position).toList) = .ok candidates ∧
      candidate ∈ candidates.tokens ∧ label ∈ labels candidate Kind.display? ∧
      item.label = .ofString label ∧ Spells label (accepted candidate label) ∧
      Fits (kindsBefore (Stream.ofText (untilPosition text position).toList) ++
        accepted candidate label) := by
  rw [atPosition] at offered
  generalize untilPosition text position = cut at *
  obtain ⟨candidates, ran, inside⟩ := mem_tokenItems_of_keyword offered keyword
  obtain ⟨candidate, member, listed⟩ := List.mem_flatMap.mp inside
  obtain ⟨wide, among, rfl⟩ := List.mem_map.mp listed
  obtain ⟨label, shown, rfl⟩ := List.mem_map.mp among
  refine ⟨candidates, candidate, label, ran, member, shown, rfl, ?_⟩
  obtain ⟨viable, wanted⟩ :=
    viable_of_candidate cypher_productive rfl (collect_backed ran) member
  obtain ⟨keyword, same⟩ := mem_ignored.mp (wanted candidate.kind (by simp))
  obtain ⟨keywords, follows⟩ := exists_keywords fun kind inside =>
    wanted kind (List.mem_cons_of_mem _ inside)
  obtain ⟨words, stands, phrased⟩ := phrase_of_mem_labels same follows shown
  rw [before_tokensUntil] at viable
  exact ⟨stands ▸ spells_phrase phrased, fits_of_viable (viable_accepted viable label)⟩

/-- At the start of a document both words that create something anew are accepted together. -/
theorem create_or_replace_fits :
    (⟨.ofString "CREATE OR REPLACE", .keyword⟩ : Item) ∈
        (atPosition ⟨3000, 3000⟩ "" ⟨0, 0⟩ {} false).getD [] ∧
      ∃ candidates candidate label,
        candidatesOf ⟨3000, 3000⟩ (Stream.ofText (untilPosition "" ⟨0, 0⟩).toList) =
          .ok candidates ∧
        candidate ∈ candidates.tokens ∧ label ∈ labels candidate Kind.display? ∧
        WideText.ofString "CREATE OR REPLACE" = .ofString label ∧
        Spells label (accepted candidate label) ∧
        Fits (kindsBefore (Stream.ofText (untilPosition "" ⟨0, 0⟩).toList) ++
          accepted candidate label) := by
  have listed : "CREATE OR REPLACE" ∈ labels creating Kind.display? := by decide +kernel
  have deep : Rule.all.length ≤ (⟨3000, 3000⟩ : Limits).collecting := by decide
  obtain ⟨-, -, -, offered⟩ := offered_at_start deep listed
  exact ⟨offered, accepted_keyword_fits "" ⟨0, 0⟩ {} false _ offered rfl⟩

/-- At the start of a document the first keyword is offered without those that may come with it, so
its label is not read as all that the candidate stands for. -/
theorem create_offered_alone :
    ∃ candidates candidate,
      candidatesOf ⟨3000, 3000⟩ (Stream.ofText (untilPosition "" ⟨0, 0⟩).toList) =
        .ok candidates ∧
      candidate ∈ candidates.tokens ∧ "CREATE" ∈ labels candidate Kind.display? ∧
      (⟨.ofString "CREATE", .keyword⟩ : Item) ∈
        (atPosition ⟨3000, 3000⟩ "" ⟨0, 0⟩ {} false).getD [] ∧
      ¬ Spells "CREATE" (candidate.kind :: candidate.followUp) := by
  have listed : "CREATE" ∈ labels creating Kind.display? := by decide +kernel
  have deep : Rule.all.length ≤ (⟨3000, 3000⟩ : Limits).collecting := by decide
  obtain ⟨candidates, ran, member, offered⟩ := offered_at_start deep listed
  have cut : (untilPosition "" ⟨0, 0⟩).toList = [] := by decide +kernel
  refine ⟨candidates, creating, by rw [cut, ran], member, listed, offered, fun spells => ?_⟩
  have alone : ((Stream.ofText "CREATE".toList).body.filter fun token => token.kind ≠ .blank).map
      (·.kind) = [.keyword .CREATE] := by decide +kernel
  have tokens := spells.tokens
  rw [alone] at tokens
  cases tokens

end CypherAssist.Completion
