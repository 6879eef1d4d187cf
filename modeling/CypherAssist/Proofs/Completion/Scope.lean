import CypherAssist.Proofs.Completion.Keywords
import CypherAssist.Proofs.Document.Diagnostics
import CypherAssist.Proofs.Document.Stop
import CypherAssist.Proofs.Grammar.Chain
import CypherAssist.Proofs.Token.Place

/-! Completion keeps to the statement at the caret. Behind a text whose statements are all valid and
closed, both sources answer as if the rest were a document of its own: the tokens are the same but
for their places, so are the candidates, and parsing stops under the same nodes. -/
namespace CypherAssist.Completion
open Token Grammar Schema Document

variable {limits : Limits}

/-- Neither parsing the text, with and without a letter at the caret, nor the walk to its end nests
too deeply. -/
structure Shallow (limits : Limits) (text : String) : Prop where
  parsed : ∀ issue ∈ (parse limits text).issues, issue.problem ≠ .tooDeep
  filled : ∀ issue ∈ (parse limits (text ++ filler)).issues, issue.problem ≠ .tooDeep
  walked : candidatesOf limits (Stream.ofText text.toList) ≠ .error .tooDeep

/-- The tokens of a text are those of its two parts, the second one read behind the first. -/
structure Behind (front whole rest : Stream) (base : Cursor) : Prop where
  body : whole.body = front.body ++ rest.body.map (Token.relocate base front.body.length)
  last : whole.last = rest.last.relocate base front.body.length

variable {before after : String} {front whole rest : Stream} {base : Cursor}

theorem behind_of_valid (valid : (parse limits before).issues = [])
    (closing : (parse limits before).stream.body.getLast?.map (·.kind) = some separator)
    (after : String) :
    Behind (parse limits before).stream (parse limits (before ++ after)).stream
      (parse limits after).stream
      (Cursor.after {} before.toList) := by
  have onward := Stream.ofText_append (terminated_of_valid valid closing).1 closing after.toList
  have text : (before ++ after).toList = before.toList ++ after.toList := String.toList_append ..
  have read : (parse limits (before ++ after)).stream =
      Stream.ofText (before.toList ++ after.toList) :=
    congrArg Stream.ofText text
  rw [read, onward]
  exact ⟨rfl, rfl⟩

theorem toList_of_behind (behind : Behind front whole rest base) :
    whole.toList = front.body ++ rest.toList.map (Token.relocate base front.body.length) := by
  simp [Stream.toList, behind.body, behind.last]

theorem isWhole_of_behind (behind : Behind front whole rest base) :
    whole.isWhole = rest.isWhole := by
  rw [Stream.isWhole, Stream.isWhole, behind.last, text_relocate]

/-- A text that is read to its end has a token, unless it is empty. -/
theorem body_ne_nil (begun : after ≠ "") (readOn : (parse limits after).stream.isWhole) :
    (parse limits after).stream.body ≠ [] := by
  have closed : (parse limits after).stream.last.lexeme = [] :=
    (Stream.isWhole_iff after.toList).mp readOn
  have covered : (parse limits after).stream.body.flatMap (·.lexeme) ++
      (parse limits after).stream.last.lexeme =
      after.toList := Stream.lexemes_readFrom {} 0 after.toList
  intro none
  rw [none, closed] at covered
  exact begun (String.toList_eq_nil_iff.mp covered.symm)

/-! ## Candidates -/

theorem caretIndex_of_behind (behind : Behind front whole rest base) (some : rest.body ≠ []) :
    caretIndex whole = front.body.length + caretIndex rest := by
  have held := List.length_pos_iff.mpr some
  simp only [caretIndex, behind.body, List.length_append, List.length_map]
  omega

/-- The tokens up to the caret are the visible ones of the closed statements and those up to the
caret in the rest. -/
theorem tokensUntil_of_behind {chars : List Char}
    (behind : Behind (Stream.ofText chars) whole rest base) (some : rest.body ≠ []) :
    tokensUntil (caretIndex whole) whole.toList = (Stream.ofText chars).visible ++
      (tokensUntil (caretIndex rest) rest.toList).map
        (Token.relocate base (Stream.ofText chars).body.length) := by
  rw [toList_of_behind behind, caretIndex_of_behind behind some, tokensUntil_append,
    tokensUntil_relocate]
  · rfl
  · intro token member
    have numbered : token.index ∈ (Stream.ofText chars).body.map (·.index) :=
      List.mem_map_of_mem member
    rw [Stream.index_body, List.mem_range'_1] at numbered
    exact ⟨by omega, Stream.isEnd_of_mem_body member⟩

/-- The candidates at the end of the whole text are those at the end of the rest alone. -/
theorem candidatesOf_behind {chars : List Char}
    (behind : Behind (Stream.ofText chars) whole rest base) (some : rest.body ≠ [])
    (shown : rest.last.isHidden = false)
    (terminated : Terminated (visibleKinds (Stream.ofText chars)))
    {found alone : Candidates} (ran : candidatesOf limits whole = .ok found)
    (ranAlone : candidatesOf limits rest = .ok alone) :
    found = alone.shift (Stream.ofText chars).body.length := by
  have held : tokensUntil (caretIndex rest) rest.toList ≠ [] := tokensUntil_ne_nil shown
  have heldToo : tokensUntil (caretIndex whole) whole.toList ≠ [] := by
    rw [tokensUntil_of_behind behind some]
    simp [held]
  obtain ⟨_, full, walked, rfl⟩ := (walk_of_collect ran).resolve_left fun none => heldToo none.1
  obtain ⟨_, part, walkedAlone, rfl⟩ :=
    (walk_of_collect ranAlone).resolve_left fun none => held none.1
  rw [tokensUntil_of_behind behind some] at walked
  obtain ⟨depth, deep⟩ : ∃ depth, limits.collecting = depth + 1 := by
    refine Nat.exists_eq_succ_of_ne_zero fun none => ?_
    rw [none] at walked
    cases walked
  rw [deep] at walked walkedAlone
  have plain : ({} : Config).preferred.contains Grammar.start = false := by decide
  have ignored : separator ∈ ({} : Config).ignored := by
    by_contra wanted
    obtain ⟨keyword, same⟩ := mem_ignored.mp wanted
    cases same
  exact candidates_behind (by simpa [List.length_pos_iff] using held) (cypher_discreet _)
    (cypher_discreet _) plain (List.contains_iff_mem.mpr ignored) terminated walked walkedAlone

/-! ## Items -/

variable {candidate : RuleCandidate} {catalog : Catalog}

theorem blankFollows_of_behind (behind : Behind front whole rest base) {index : Int}
    (counted : 0 ≤ index) :
    blankFollows whole.toList (front.body.length + index) = blankFollows rest.toList index := by
  have place : ((front.body.length : Int) + index + 1).toNat =
      front.body.length + (index + 1).toNat := by omega
  rw [blankFollows, blankFollows, toList_of_behind behind, place,
    List.getElem?_append_right (Nat.le_add_right ..), Nat.add_sub_cancel_left, List.getElem?_map,
    Option.map_map]
  rfl

theorem classify_of_behind (behind : Behind front whole rest base) (counted : 0 ≤ candidate.start) :
    classify (candidate.shift front.body.length) catalog whole.toList =
      classify candidate catalog rest.toList := by
  have follows := blankFollows_of_behind behind counted
  unfold classify classifyAlias RuleCandidate.shift
  rw [follows]

/-- A rule candidate starts at a token of the stream. -/
theorem start_nonneg {candidates : Candidates} (ran : candidatesOf limits rest = .ok candidates)
    (member : candidate ∈ candidates.rules) : 0 ≤ candidate.start := by
  obtain ⟨-, position, outer, same, -⟩ := (collect_backed ran).rules candidate member
  rw [same, Caret.ruleAt]
  cases found : (Caret.tokens _)[position]? with
  | none => simp
  | some token => simp

theorem exists_candidates {chars : List Char}
    (walked : candidatesOf limits (Stream.ofText chars) ≠ .error .tooDeep) :
    ∃ candidates, candidatesOf limits (Stream.ofText chars) = .ok candidates := by
  have exact := candidatesOf_exact limits chars
  cases ran : candidatesOf limits (Stream.ofText chars) with
  | ok candidates => exact ⟨candidates, rfl⟩
  | error obstacle =>
    simp only [ran] at exact
    exact absurd (exact.1 ▸ ran) walked

/-! ## Both sources -/

/-- The tree answers alike where parsing stopped in places that are alike. -/
theorem structural_alike {one two : Document}
    (body : one.stream.body.isEmpty = two.stream.body.isEmpty)
    (whole : one.stream.isWhole = two.stream.isWhole) (blank : endsBlank one = endsBlank two)
    (alike : List.Forall₂ Tree.Alike one.tree.stop.2 two.tree.stop.2) (catalog : Catalog) :
    structural one catalog = structural two catalog := by
  have expression := Tree.parentExpression?_alike alike
  simp only [structural, body, whole, blank, Tree.inRelationshipType_alike alike,
    Tree.inProcedureName_alike alike]
  cases here : Tree.parentExpression? one.tree.stop.2 with
  | none =>
    rw [here, Option.map_none] at expression
    rw [Option.map_eq_none_iff.mp expression.symm]
  | some node =>
    rw [here, Option.map_some] at expression
    obtain ⟨other, there, same⟩ := Option.map_eq_some_iff.mp expression.symm
    rw [there]
    simp only [same]

section
variable (valid : (parse limits before).issues = [])
  (closing : (parse limits before).stream.body.getLast?.map (·.kind) = some separator)
include valid closing

/-- The grammar answers at the end of the whole text as at the end of the rest. -/
theorem fromGrammar_append (some : (parse limits after).stream.body ≠ [])
    (whole : candidatesOf limits (Stream.ofText (before ++ after).toList) ≠ .error .tooDeep)
    (alone : candidatesOf limits (Stream.ofText after.toList) ≠ .error .tooDeep)
    (catalog : Catalog) :
    fromGrammar limits (parse limits (before ++ after)) catalog =
      fromGrammar limits (parse limits after) catalog := by
  obtain ⟨found, ran⟩ := exists_candidates whole
  obtain ⟨candidates, ranAlone⟩ := exists_candidates alone
  have behind := behind_of_valid valid closing after
  have same := candidatesOf_behind behind some (Stream.isHidden_last _)
    (terminated_of_valid valid closing).2.1 ran ranAlone
  have offered : ruleItems found.rules catalog (parse limits (before ++ after)).stream.toList =
      ruleItems candidates.rules catalog (parse limits after).stream.toList := by
    rw [same, Candidates.shift, ruleItems, ruleItems, List.flatMap_map]
    exact List.flatMap_congr fun candidate member =>
      congrArg _ (classify_of_behind behind (start_nonneg ranAlone member))
  simp only [fromGrammar, candidatesAt_parse, ran, ranAlone, offered]
  simp only [same, Candidates.shift, List.isEmpty_map]

theorem endsBlank_append (some : (parse limits after).stream.body ≠ []) :
    endsBlank (parse limits (before ++ after)) = endsBlank (parse limits after) := by
  rw [endsBlank, endsBlank, (behind_of_valid valid closing after).body, List.getLast?_append,
    List.getLast?_map]
  cases last : (parse limits after).stream.body.getLast? with
  | none => exact absurd (List.getLast?_eq_none_iff.mp last) some
  | some token => rfl

/-- The tree answers at the end of the whole text as at the end of the rest. -/
theorem structural_append (some : (parse limits after).stream.body ≠ [])
    (whole : ∀ issue ∈ (parse limits (before ++ after)).issues, issue.problem ≠ .tooDeep)
    (alone : ∀ issue ∈ (parse limits after).issues, issue.problem ≠ .tooDeep) (catalog : Catalog) :
    structural (parse limits (before ++ after)) catalog =
      structural (parse limits after) catalog := by
  have behind := behind_of_valid valid closing after
  obtain ⟨_, _, ran⟩ := (not_tooDeep_iff _).mp whole
  obtain ⟨_, _, ranAlone⟩ := (not_tooDeep_iff _).mp alone
  refine structural_alike ?_ (isWhole_of_behind behind) (endsBlank_append valid closing some)
    (stop_append valid closing ran ranAlone) catalog
  rw [List.isEmpty_eq_false_iff.mpr some, List.isEmpty_eq_false_iff, behind.body]
  simp [some]

/-- With a letter at the caret, too, the tree answers as in the rest. -/
theorem structuralFilled_append
    (whole : ∀ issue ∈ (parse limits (before ++ after ++ filler)).issues, issue.problem ≠ .tooDeep)
    (alone : ∀ issue ∈ (parse limits (after ++ filler)).issues, issue.problem ≠ .tooDeep)
    (catalog : Catalog) :
    structuralFilled limits (before ++ after) catalog = structuralFilled limits after catalog := by
  rw [String.append_assoc] at whole
  obtain ⟨_, _, ran⟩ := (not_tooDeep_iff _).mp whole
  obtain ⟨_, _, ranAlone⟩ := (not_tooDeep_iff _).mp alone
  have relationship := Tree.inRelationshipType_alike (stop_append valid closing ran ranAlone)
  unfold structuralFilled
  rw [String.append_assoc]
  by_cases some : (parse limits (after ++ filler)).stream.body = []
  · -- Without a token in the rest parsing stopped at the root.
    have nowhere : (parse limits (after ++ filler)).tree.stop.2 = [] :=
      stop_of_closed ranAlone (.inl (by simp [visibleKinds, Stream.visible, some]))
    have outside :
        Tree.inRelationshipType (parse limits (after ++ filler)).tree.stop.2 = false := by
      rw [nowhere]
      rfl
    simp only [relationship, outside, Bool.false_eq_true, ↓reduceIte, ite_self]
  · simp only [endsBlank_append valid closing some, relationship]

end

/-- Completion is scoped to the current statement: behind a valid text that ends with a semicolon
it answers as in the rest of the text alone, from whichever source comes first. -/
theorem completion_scoped {document alone : String} {position place : Text.Position}
    (valid : (parse limits before).issues = [])
    (closing : (parse limits before).stream.body.getLast?.map (·.kind) = some (.symbol .semicolon))
    (begun : after ≠ "") (shallow : Shallow limits (before ++ after))
    (shallowAlone : Shallow limits after)
    (there : Text.untilPosition document position = before ++ after)
    (here : Text.untilPosition alone place = after) (catalog : Catalog) (preferTree : Bool) :
    atPosition limits document position catalog preferTree =
      atPosition limits alone place catalog preferTree := by
  have behind := behind_of_valid valid closing after
  rw [atPosition, atPosition, there, here]
  simp only [atEnd, isWhole_of_behind behind]
  cases readOn : (parse limits after).stream.isWhole with
  | false => rfl
  | true =>
    have some := body_ne_nil begun readOn
    have grammar := fromGrammar_append valid closing some shallow.walked shallowAlone.walked catalog
    have read := structural_append valid closing some shallow.parsed shallowAlone.parsed catalog
    have filled := structuralFilled_append valid closing shallow.filled shallowAlone.filled catalog
    have tree : fromTree limits (parse limits (before ++ after)) catalog =
        fromTree limits (parse limits after) catalog :=
      congrArg₂ (· <|> ·) read filled
    rw [grammar, tree]

/-- A text of few tokens nests nowhere too deeply. -/
theorem shallow_of_short {text : String}
    (parsed : Rule.all.length * ((Stream.ofText text.toList).visible.length + 1) ≤ limits.parsing)
    (filled : Rule.all.length * ((Stream.ofText (text ++ filler).toList).visible.length + 1) ≤
      limits.parsing)
    (walked : Rule.all.length * ((kindsBefore (Stream.ofText text.toList)).length + 1) ≤
      limits.collecting) :
    Shallow limits text where
  parsed := (not_tooDeep_iff text).mpr (derive_of_short (by rwa [List.size_toArray]))
  filled := (not_tooDeep_iff _).mpr (derive_of_short (by rwa [List.size_toArray]))
  walked deep := by
    obtain ⟨candidates, ran⟩ := exists_candidates_of_short walked
    cases deep.symm.trans ran

/-- Behind a complete statement the next one is completed as if it stood alone. -/
theorem second_return_completed_alone :
    (parse ⟨3000, 3000⟩ "RETURN 1;").issues = [] ∧
      (parse ⟨3000, 3000⟩ "RETURN 1;").stream.body.getLast?.map (·.kind) =
        some (.symbol .semicolon) ∧
      "RETURN " ≠ "" ∧ Shallow ⟨3000, 3000⟩ ("RETURN 1;" ++ "RETURN ") ∧
      Shallow ⟨3000, 3000⟩ "RETURN " ∧
      Text.untilPosition "RETURN 1;RETURN " ⟨0, 16⟩ = "RETURN 1;" ++ "RETURN " ∧
      Text.untilPosition "RETURN " ⟨0, 7⟩ = "RETURN " ∧
      atPosition ⟨3000, 3000⟩ "RETURN 1;RETURN " ⟨0, 16⟩ {} true =
        atPosition ⟨3000, 3000⟩ "RETURN " ⟨0, 7⟩ {} true := by
  have kinds : visibleKinds (parse ⟨3000, 3000⟩ "RETURN 1;").stream =
      [.keyword .RETURN, .integer, .symbol .semicolon] := by decide +kernel
  have closing : (parse ⟨3000, 3000⟩ "RETURN 1;").stream.body.getLast?.map (·.kind) =
      some (.symbol .semicolon) := by decide +kernel
  have shallow : Shallow ⟨3000, 3000⟩ ("RETURN 1;" ++ "RETURN ") :=
    shallow_of_short (by decide +kernel) (by decide +kernel) (by decide +kernel)
  have shallowAlone : Shallow ⟨3000, 3000⟩ "RETURN " :=
    shallow_of_short (by decide +kernel) (by decide +kernel) (by decide +kernel)
  have there : Text.untilPosition "RETURN 1;RETURN " ⟨0, 16⟩ = "RETURN 1;" ++ "RETURN " := by
    decide +kernel
  have here : Text.untilPosition "RETURN " ⟨0, 7⟩ = "RETURN " := by decide +kernel
  have valid : (parse ⟨3000, 3000⟩ "RETURN 1;").issues = [] := by
    have document : Word cypher (.reference Grammar.start)
        (visibleKinds (parse ⟨3000, 3000⟩ "RETURN 1;").stream) := by
      rw [kinds]
      decide +kernel
    exact Diagnostic.issues_of_document (derive_of_short (by decide +kernel)) (by decide +kernel)
      document
  exact ⟨valid, closing, by decide, shallow, shallowAlone, there, here,
    completion_scoped valid closing (by decide) shallow shallowAlone there here {} true⟩

end CypherAssist.Completion
