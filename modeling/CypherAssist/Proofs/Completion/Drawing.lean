import CypherAssist.Proofs.Completion.Continuation

/-! What the catalog decides of a completion: the names, and nothing else. Whether there is an
answer at all, and which keywords are in it, is settled before the catalog is looked at, by each
source of completions for itself; so an empty catalog is an answer as good as a full one. -/
namespace CypherAssist.Completion
open Schema

variable {limits : Limits}

/-- The keywords among the suggestions, in their order. No opinion has none. -/
def keywordItems (suggestions : Suggestions) : List Item :=
  (suggestions.getD []).filter fun item => item.kind = .keyword

/-- The same opinion, or none in both, and the same keywords in the same order. -/
structure Matching (one other : Suggestions) : Prop where
  opinion : one = none ↔ other = none
  keywords : keywordItems one = keywordItems other

/-- The names of the catalog that an item of a kind may stand for. -/
def namesFor (catalog : Catalog) : ItemKind → List Text.WideText
  | .typeParameter => catalog.labels ++ catalog.relationshipTypes
  | .function => catalog.procedureNames ++ catalog.functionNames
  | .value => catalog.databaseNames ++ catalog.aliasNames
  | .keyword | .text => []

/-- The item is a keyword, or a name drawn from the part of the catalog that its kind stands for. -/
def Drawn (catalog : Catalog) (item : Item) : Prop :=
  item.kind = .keyword ∨ item.label ∈ namesFor catalog item.kind

variable {first second catalog : Catalog} {document : Document} {item : Item}

/-! ## Suggestions -/

theorem keywordItems_of_names {found : List Item} (names : ∀ item ∈ found, item.kind ≠ .keyword) :
    keywordItems (some found) = [] :=
  List.filter_eq_nil_iff.mpr fun item member => by simpa using names item member

theorem matching_names {one other : List Item} (oneNames : ∀ item ∈ one, item.kind ≠ .keyword)
    (otherNames : ∀ item ∈ other, item.kind ≠ .keyword) : Matching (some one) (some other) :=
  ⟨by simp, by rw [keywordItems_of_names oneNames, keywordItems_of_names otherNames]⟩

/-- Sources that match one by one match when the second is asked where the first has no opinion. -/
theorem matching_orElse {one other next after : Suggestions} (here : Matching one other)
    (there : Matching next after) : Matching (one <|> next) (other <|> after) := by
  cases one with
  | none =>
    obtain rfl := here.opinion.mp rfl
    exact there
  | some found =>
    cases other with
    | none => exact absurd (here.opinion.mpr rfl) (by simp)
    | some seen => exact here

/-! ## Names drawn from the catalog -/

theorem drawn_of_mem_items {names : List Text.WideText} {kind : ItemKind}
    (part : names ⊆ namesFor catalog kind) (member : item ∈ items names kind) :
    Drawn catalog item := by
  obtain ⟨name, inside, rfl⟩ := List.mem_map.mp member
  exact .inr (part inside)

/-- The procedures are drawn on wherever something is called. -/
theorem drawn_procedure (member : item ∈ items catalog.procedureNames .function) :
    Drawn catalog item :=
  drawn_of_mem_items (List.subset_append_left ..) member

theorem drawn_relationshipType (member : item ∈ items catalog.relationshipTypes .typeParameter) :
    Drawn catalog item :=
  drawn_of_mem_items (List.subset_append_right ..) member

theorem drawn_of_mem_classifyName {enclosing : List Grammar.Rule}
    (member : item ∈ (classifyName enclosing catalog).items) : Drawn catalog item := by
  unfold classifyName at member
  split at member
  · exact drawn_procedure member
  split at member
  · exact drawn_relationshipType member
  split at member
  · exact drawn_of_mem_items (List.subset_append_left ..) member
  split at member
  · exact drawn_of_mem_items
      (List.append_subset.mpr ⟨List.subset_append_right .., List.subset_append_left ..⟩) member
  · cases member

theorem drawn_of_mem_classifyAlias {candidate : Grammar.RuleCandidate} {tokens : List Token}
    (member : item ∈ (classifyAlias candidate catalog tokens).items) : Drawn catalog item := by
  unfold classifyAlias at member
  split at member
  · cases member
  split at member
  · cases member
  split at member
  · exact drawn_of_mem_items (List.subset_append_right ..) member
  · exact drawn_of_mem_items (List.Subset.refl _) member

theorem drawn_of_mem_ruleItems {candidates : List Grammar.RuleCandidate} {tokens : List Token}
    (member : item ∈ ruleItems candidates catalog tokens) : Drawn catalog item := by
  obtain ⟨candidate, -, inside⟩ := List.mem_flatMap.mp member
  unfold classify at inside
  split at inside
  · exact drawn_of_mem_classifyName inside
  split at inside
  · exact drawn_of_mem_classifyAlias inside
  · cases inside

theorem kind_of_mem_tokenItems {candidates : List Grammar.TokenCandidate}
    {names : Token.Kind → Option String} (member : item ∈ tokenItems candidates names) :
    item.kind = .keyword := by
  obtain ⟨candidate, -, inside⟩ := List.mem_flatMap.mp member
  exact kind_of_mem_items inside

/-! ## Completions from the grammar -/

/-- The candidates decide on the opinion, and token candidates on the keywords. -/
theorem matching_fromGrammar (limits : Limits) (document : Document) (first second : Catalog) :
    Matching (fromGrammar limits document first) (fromGrammar limits document second) := by
  simp only [fromGrammar]
  split
  · exact ⟨Iff.rfl, rfl⟩
  · refine ⟨by simp, ?_⟩
    have noNames (catalog : Catalog) : keywordItems (some (ruleItems
        (candidatesAt limits document (caretIndex document.stream) {}).rules catalog
          document.stream.toList)) = [] :=
      keywordItems_of_names fun _ => kind_of_mem_ruleItems
    simp only [keywordItems, Option.getD_some] at noNames
    simp only [keywordItems, Option.getD_some, List.filter_append, noNames]

theorem drawn_of_mem_fromGrammar (member : item ∈ (fromGrammar limits document catalog).getD []) :
    Drawn catalog item := by
  simp only [fromGrammar] at member
  split at member
  · cases member
  · rcases List.mem_append.mp member with inRules | inTokens
    · exact drawn_of_mem_ruleItems inRules
    · exact .inl (kind_of_mem_tokenItems inTokens)

/-! ## Completions from the tree -/

/-- What stands at the place where parsing stopped decides on the opinion. -/
theorem structural_eq_none_iff : structural document first = none ↔
    structural document second = none := by
  simp only [structural]
  split
  · rfl
  split
  · simp
  split
  · rfl
  split
  · simp
  split
  · simp
  · split
    · simp
    · rfl

theorem matching_structural (document : Document) (first second : Catalog) :
    Matching (structural document first) (structural document second) := by
  cases one : structural document first with
  | none =>
    rw [structural_eq_none_iff.mp one]
    exact ⟨Iff.rfl, rfl⟩
  | some found =>
    cases other : structural document second with
    | none =>
      rw [structural_eq_none_iff.mp other] at one
      cases one
    | some seen =>
      exact matching_names (fun _ => kind_of_mem_structural one)
        fun _ => kind_of_mem_structural other

theorem matching_structuralFilled (text : String) (first second : Catalog) :
    Matching (structuralFilled limits text first) (structuralFilled limits text second) := by
  simp only [structuralFilled]
  split
  · exact ⟨Iff.rfl, rfl⟩
  split
  · exact matching_names (fun _ member => by simp [kind_of_mem_items member])
      fun _ member => by simp [kind_of_mem_items member]
  · exact ⟨Iff.rfl, rfl⟩

theorem matching_fromTree (limits : Limits) (document : Document) (first second : Catalog) :
    Matching (fromTree limits document first) (fromTree limits document second) :=
  matching_orElse (matching_structural document first second)
    (matching_structuralFilled document.text first second)

theorem drawn_of_mem_structural (member : item ∈ (structural document catalog).getD []) :
    Drawn catalog item := by
  simp only [structural] at member
  split at member
  · cases member
  split at member
  · cases member
  split at member
  · cases member
  split at member
  · exact drawn_relationshipType member
  split at member
  · exact drawn_of_mem_items
      (List.Subset.trans List.filter_sublist.subset (List.subset_append_right ..)) member
  · split at member
    · exact drawn_procedure member
    · cases member

theorem drawn_of_mem_fromTree (member : item ∈ (fromTree limits document catalog).getD []) :
    Drawn catalog item := by
  rcases mem_getD_orElse member with read | filled
  · exact drawn_of_mem_structural read
  · simp only [structuralFilled] at filled
    split at filled
    · cases filled
    split at filled
    · exact drawn_relationshipType filled
    · cases filled

/-! ## Completions at a position -/

/-- With one catalog or another, completion has an opinion in the same places and offers the same
keywords in the same order; all else that it offers are names drawn from the catalog, each from the
part that its kind stands for. -/
theorem catalog_gives_names_only (text : String) (position : Text.Position) (preferTree : Bool)
    (first second : Catalog) :
    Matching (atPosition limits text position first preferTree)
        (atPosition limits text position second preferTree) ∧
      ∀ item ∈ (atPosition limits text position first preferTree).getD [], Drawn first item := by
  simp only [atPosition, atEnd]
  generalize Document.parse limits (Text.untilPosition text position) = document
  have grammar := matching_fromGrammar limits document first second
  have tree := matching_fromTree limits document first second
  split
  · exact ⟨⟨Iff.rfl, rfl⟩, fun _ member => by cases member⟩
  cases preferTree with
  | true =>
    exact ⟨matching_orElse tree grammar, fun _ member =>
      (mem_getD_orElse member).elim drawn_of_mem_fromTree drawn_of_mem_fromGrammar⟩
  | false =>
    exact ⟨matching_orElse grammar tree, fun _ member =>
      (mem_getD_orElse member).elim drawn_of_mem_fromGrammar drawn_of_mem_fromTree⟩

end CypherAssist.Completion
