import CypherAssist.Proofs.Completion.Names
import CypherAssist.Proofs.Completion.Scope
import CypherAssist.Proofs.Grammar.Twins
import CypherAssist.Proofs.Token.Typing

/-! Completion while a word is typed. The walk does not look at the word under the caret, so it
finds the same for every word. Where it finds nothing no word fits, so whichever is typed is a
misfit and the tree has nothing to say. -/
namespace CypherAssist.Completion
open Token Grammar Schema Document Text Stream

variable {limits : Limits}

/-! ## Where no word fits -/

/-- The kinds of words. -/
def IsWordKind (kind : Kind) : Prop := kind = .plainName ∨ ∃ keyword, kind = .keyword keyword

theorem isWordKind_wordKind (word : List Char) : IsWordKind (Lexeme.wordKind word) := by
  unfold Lexeme.wordKind
  split
  · exact .inr ⟨_, rfl⟩
  · exact .inl rfl

theorem isHidden_of_isWordKind {token : Token} (word : IsWordKind token.kind) :
    token.isHidden = false := by
  rcases word with plain | ⟨keyword, same⟩
  · simp [Token.isHidden, plain, Kind.isHidden]
  · simp [Token.isHidden, same, Kind.isHidden]

variable {tokens : List Token} {rule : Rule} {asked : Kind}

/-- Whether an element is a plain name. -/
def isPlainName : Element → Bool
  | .token .plainName => true
  | _ => false

/-- Plain names stand in preferred rules only. -/
theorem not_meets_plainName :
    ¬ Meets cypher (caretAmong tokens).Admits (caretAmong tokens).before
      (.reference Grammar.start) position target .plainName := by
  intro meets
  have checked : ∀ rule ∈ Rule.all, rule ∉ ({} : Config).preferred →
      ∀ part ∈ (definition rule).subelements, ¬ isPlainName part := by decide
  rcases token_of_meets meets with here | ⟨rule, body, admitted, defined, inside⟩
  · simp [Element.subelements] at here
  · cases defined
    exact checked rule (Rule.mem_all rule)
      (fun preferred => admitted (prefers_caretAmong.mpr preferred)) _ inside rfl

/-- Where the walk to the end of a text finds nothing, no word goes on with the tokens before the
caret. -/
theorem not_viable_of_nothing {chars : List Char} {candidates : Candidates}
    (ran : candidatesOf limits (Stream.ofText chars) = .ok candidates)
    (noRules : candidates.rules = [])
    (noTokens : candidates.tokens = []) (word : IsWordKind asked) :
    ¬ Viable cypher Grammar.start (kindsBefore (Stream.ofText chars) ++ [asked]) := by
  intro viable
  have awaits := (viable_append_iff cypher_productive).mp viable
  generalize among : tokensUntil (caretIndex (Stream.ofText chars)) (Stream.ofText chars).toList =
    tokens
  have before : (caretAmong tokens).before = kindsBefore (Stream.ofText chars) := by
    rw [← among]
    exact before_tokensUntil chars _ _
  have meets : Meets cypher anyRule (caretAmong tokens).before (.reference Grammar.start) 0
      (caretAmong tokens).position asked := by
    refine (meets_iff (Nat.zero_le _)).mpr ⟨Nat.zero_le _, ?_, ?_⟩
    · rw [Caret.length_before]
    · rw [← Caret.length_before, before]
      simpa using awaits
  have quiet (rule : Rule) (body : Element) (position : Nat)
      (preferred : (caretAmong tokens).prefers rule) (defined : cypher rule = some body)
      (earlier : position < (caretAmong tokens).position) :
      ¬ Meets cypher (caretAmong tokens).Admits (caretAmong tokens).before body position
        (caretAmong tokens).position asked := by
    cases defined
    intro meets
    have sign := dot_or_number_of_preferred (prefers_caretAmong.mp preferred) earlier meets
    rcases word with rfl | ⟨keyword, rfl⟩ <;> simp at sign
  rcases tells_or_meets quiet meets rfl none with ⟨found, told⟩ | outside
  · subst among
    obtain ⟨candidate, member, -⟩ :=
      collect_tells cypher_leftRecursionFree (tokensUntil_ofText_ne_nil _ _) (cypher_discreet _) ran
        told
    rw [noRules] at member
    cases member
  · rcases word with rfl | ⟨keyword, rfl⟩
    · exact not_meets_plainName outside
    · have exact := candidatesOf_exact limits chars
      simp only [ran] at exact
      have admits : (caretAmong tokens).Admits = (· ∉ ({} : Config).preferred) :=
        funext fun rule => propext (not_congr prefers_caretAmong)
      have awaited := ((meets_iff (Nat.zero_le _)).mp outside).2.2
      rw [admits, before, List.drop_zero, Nat.sub_zero, ← Caret.length_before, before,
        List.take_length] at awaited
      obtain ⟨candidate, member, -⟩ := (exact (.keyword keyword)).mpr ⟨keyword, rfl, awaited⟩
      rw [noTokens] at member
      cases member

/-! ## Texts that differ in their last token -/

/-- A token that stands behind others in a stream, as its last one. -/
structure Follows (front : List Token) (last : Token) : Prop where
  ahead : ∀ token ∈ front, token.index < front.length ∧ token.isEnd = false
  index : last.index = front.length

/-- Neither the walk nor what is made of its candidates tells one token from the other. -/
structure Alike (one two : Token) : Prop where
  hidden : one.isHidden = two.isHidden
  blank : one.kind = .blank ↔ two.kind = .blank

variable {front : List Token} {one two last : Token}

theorem alike_of_words (first : IsWordKind one.kind) (second : IsWordKind two.kind) :
    Alike one two := by
  refine ⟨(isHidden_of_isWordKind first).trans (isHidden_of_isWordKind second).symm, ?_⟩
  rcases first with plain | ⟨_, plain⟩ <;> rcases second with same | ⟨_, same⟩ <;>
    simp [plain, same]

theorem caretIndex_endingWith : caretIndex (endingWith front last) = front.length := by
  simp [caretIndex, endingWith]

theorem toList_endingWith :
    (endingWith front last).toList = front ++ [last, (endingWith front last).last] := by
  simp [Stream.toList, endingWith]

/-- Under the caret is the last token, or behind a hidden one the closing token. -/
theorem tokensUntil_endingWith (follows : Follows front last) :
    tokensUntil (caretIndex (endingWith front last)) (endingWith front last).toList =
      (front.filter fun token => !token.isHidden) ++
        [if last.isHidden then (endingWith front last).last else last] := by
  have closing : (endingWith front last).last.isHidden = false := rfl
  have ends : (endingWith front last).last.isEnd := rfl
  rw [caretIndex_endingWith, toList_endingWith, tokensUntil_append follows.ahead]
  cases hidden : last.isHidden <;> simp [tokensUntil, hidden, closing, ends, follows.index]

theorem before_append_singleton (tokens : List Token) (last : Token) (preferred : List Rule)
    (ignored : List Kind) :
    Caret.before ⟨(tokens ++ [last]).toArray, preferred, ignored⟩ = tokens.map (·.kind) := by
  simp [Caret.before, Caret.position]

/-- The candidates do not depend on the last token. -/
theorem candidatesOf_endingWith (limits : Limits) (first : Follows front one)
    (second : Follows front two)
    (alike : Alike one two) :
    candidatesOf limits (endingWith front one) = candidatesOf limits (endingWith front two) := by
  have place : caretIndex (endingWith front one) = caretIndex (endingWith front two) := by
    rw [caretIndex_endingWith, caretIndex_endingWith]
  rw [candidatesOf, candidatesOf, ← place]
  refine collect_twins ⟨rfl, rfl, ?_, ?_⟩
  · rw [tokensUntil_endingWith first, place, tokensUntil_endingWith second, alike.hidden]
    split <;> simp [first.index, second.index, endingWith]
  · rw [tokensUntil_endingWith first, place, tokensUntil_endingWith second,
      before_append_singleton, before_append_singleton]

theorem blankFollows_endingWith (alike : Alike one two) (index : Int) :
    blankFollows (endingWith front one).toList index =
      blankFollows (endingWith front two).toList index := by
  have blanks : (endingWith front one).toList.map (fun token => decide (token.kind = .blank)) =
      (endingWith front two).toList.map fun token => decide (token.kind = .blank) := by
    simp [Stream.toList, endingWith, alike.blank]
  have here := congrArg (·[(index + 1).toNat]?) blanks
  simp only [List.getElem?_map] at here
  rw [blankFollows, blankFollows]
  generalize (endingWith front one).toList[(index + 1).toNat]? = first,
    (endingWith front two).toList[(index + 1).toNat]? = second at here
  cases first <;> cases second <;> simp_all

theorem ruleItems_endingWith (alike : Alike one two) (candidates : List RuleCandidate)
    (catalog : Catalog) :
    ruleItems candidates catalog (endingWith front one).toList =
      ruleItems candidates catalog (endingWith front two).toList := by
  unfold ruleItems classify classifyAlias
  simp only [blankFollows_endingWith alike]

/-! ## Both sources -/

theorem follows_of_read {chars : List Char} (read : Stream.ofText chars = endingWith front last) :
    Follows front last := by
  have body : (Stream.ofText chars).body = front ++ [last] := by rw [read]; rfl
  have numbered := Stream.index_body chars
  simp only [body, List.map_append, List.map_cons, List.map_nil, List.length_append,
    List.length_singleton, List.range'_1_concat, Nat.zero_add] at numbered
  obtain ⟨inside, index⟩ := List.append_inj' numbered rfl
  refine ⟨fun token member => ⟨?_, ?_⟩, by simpa using index⟩
  · have among : token.index ∈ front.map (·.index) := List.mem_map_of_mem member
    rw [inside, List.mem_range'_1] at among
    omega
  · exact Stream.isEnd_of_mem_body (by rw [body]; exact List.mem_append_left _ member)

variable {text other : String} {catalog : Catalog}

section
variable (read : Stream.ofText text.toList = endingWith front one)
include read

theorem stream_of_read : (parse limits text).stream = endingWith front one := read

/-- A text that is read to its end is answered from both sources. -/
theorem atEnd_of_read : atEnd limits text catalog false =
    (fromGrammar limits (parse limits text) catalog <|>
      fromTree limits (parse limits text) catalog) := by
  have whole : (parse limits text).stream.isWhole := by
    rw [stream_of_read read]
    rfl
  simp [atEnd, whole]

variable (also : Stream.ofText other.toList = endingWith front two) (alike : Alike one two)
include also alike

theorem fromGrammar_of_read : fromGrammar limits (parse limits text) catalog =
    fromGrammar limits (parse limits other) catalog := by
  have same := candidatesOf_endingWith limits (follows_of_read read) (follows_of_read also) alike
  simp only [fromGrammar, candidatesAt_parse]
  simp only [stream_of_read read, stream_of_read also, read, also, same,
    ruleItems_endingWith alike]

theorem endsBlank_of_read : endsBlank (parse limits text) = endsBlank (parse limits other) := by
  rw [endsBlank, endsBlank, stream_of_read read, stream_of_read also]
  simp [endingWith, alike.blank]

/-- Hidden tokens make no difference to the tree. -/
theorem stop_of_read (hidden : one.isHidden) :
    List.Forall₂ Tree.Alike (parse limits text).tree.stop.2 (parse limits other).tree.stop.2 := by
  refine stop_alike ?_
  rw [stream_of_read read, stream_of_read also]
  simp [Stream.visible, endingWith, hidden, ← alike.hidden]

/-- Behind a hidden token the tree answers alike, if it also does with a letter at the caret. -/
theorem fromTree_of_read (hidden : one.isHidden)
    (filled : structuralFilled limits text catalog = structuralFilled limits other catalog) :
    fromTree limits (parse limits text) catalog = fromTree limits (parse limits other) catalog := by
  refine congrArg₂ (· <|> ·) ?_ filled
  refine structural_alike ?_ ?_ (endsBlank_of_read read also alike)
    (stop_of_read read also alike hidden) catalog
  · rw [stream_of_read read, stream_of_read also, Bool.eq_iff_iff]
    simp [endingWith]
  · rw [stream_of_read read, stream_of_read also]
    rfl

end

/-- A word that is typed is a misfit if the walk finds nothing for it. -/
theorem stop_of_nothing (read : Stream.ofText text.toList = endingWith front one)
    (word : IsWordKind one.kind)
    (nothing : fromGrammar limits (parse limits text) catalog = none)
    (guarded : candidatesOf limits (Stream.ofText text.toList) = .error .tooDeep →
      ∃ issue ∈ (parse limits text).issues, issue.problem = .tooDeep) :
    (parse limits text).tree.stop.2 = [] := by
  cases ran : derive limits (parse limits text).stream.visible.toArray with
  | error obstacle => exact stop_of_tooDeep ran
  | ok outcome =>
    have shallow : candidatesOf limits (Stream.ofText text.toList) ≠ .error .tooDeep := by
      intro deep
      obtain ⟨issue, member, same⟩ := guarded deep
      exact (not_tooDeep_iff text).mpr ⟨_, _, ran⟩ issue member same
    obtain ⟨candidates, found⟩ := exists_candidates shallow
    obtain ⟨noRules, noTokens⟩ : candidates.rules = [] ∧ candidates.tokens = [] := by
      simpa [fromGrammar, candidatesAt_parse, found] using nothing
    refine stop_of_closed ran (.inr (.inr ?_))
    have kinds : visibleKinds (parse limits text).stream =
        kindsBefore (Stream.ofText text.toList) ++ [one.kind] := by
      rw [stream_of_read read, read]
      simp [visibleKinds, Stream.visible, kindsBefore, endingWith, isHidden_of_isWordKind word]
    rw [kinds]
    exact not_viable_of_nothing found noRules noTokens word

/-- The tree has nothing to say where parsing stopped at the root. -/
theorem structural_of_root {document : Document} (whole : document.stream.isWhole)
    (stopped : document.tree.stop.2 = []) : structural document catalog = none := by
  unfold structural
  split
  · rfl
  · split
    · rename_i cut
      simp [whole] at cut
    · split
      · rfl
      · simp [stopped, Tree.inRelationshipType, Tree.parentExpression?, Tree.inProcedureName,
          Tree.enclosing?]

theorem structuralFilled_of_root (stopped : (parse limits (text ++ filler)).tree.stop.2 = []) :
    structuralFilled limits text catalog = none := by
  simp [structuralFilled, stopped, Tree.inRelationshipType, Tree.enclosing?]

/-! ## Typing a word -/

/-- The walk to the end of the text is given up for its depth only where parsing is, with a letter
at the caret as well as without. -/
structure Guarded (limits : Limits) (text : String) : Prop where
  parsed : candidatesOf limits (Stream.ofText text.toList) = .error .tooDeep →
    ∃ issue ∈ (parse limits text).issues, issue.problem = .tooDeep
  filled : candidatesOf limits (Stream.ofText text.toList) = .error .tooDeep →
    ∃ issue ∈ (parse limits (text ++ filler)).issues, issue.problem = .tooDeep

theorem guarded_of_shallow (shallow : Shallow limits text) : Guarded limits text :=
  ⟨fun deep => absurd deep shallow.walked, fun deep => absurd deep shallow.walked⟩

theorem isName_filler {word : String} (named : IsName word.toList) :
    IsName (word ++ filler).toList := by
  rw [String.toList_append]
  exact isName_append named (List.all_eq_true.mp (by decide))

variable {before word other : String} {place : Cursor}

/-- In a comment no word is a token of its own, and completion answers as in front of it. -/
theorem atEnd_of_comment {begun : List Char}
    (onward : ∀ word, IsName word → Stream.ofText (before.toList ++ word) =
      endingWith front ⟨.lineComment, begun ++ word, place, front.length⟩)
    (named : IsName word.toList) (also : IsName other.toList) :
    atEnd limits (before ++ word) catalog false = atEnd limits (before ++ other) catalog false := by
  have read (word : String) (named : IsName word.toList) :
      Stream.ofText (before ++ word).toList =
        endingWith front ⟨.lineComment, begun ++ word.toList, place, front.length⟩ := by
    rw [String.toList_append]
    exact onward word.toList named
  have alike (one two : List Char) :
      Alike ⟨.lineComment, one, place, front.length⟩ ⟨.lineComment, two, place, front.length⟩ :=
    ⟨rfl, Iff.rfl⟩
  have filled : structuralFilled limits (before ++ word) catalog =
      structuralFilled limits (before ++ other) catalog := by
    have one := read (word ++ filler) (isName_filler named)
    have two := read (other ++ filler) (isName_filler also)
    unfold structuralFilled
    rw [String.append_assoc, String.append_assoc]
    simp only [endsBlank_of_read one two (alike _ _),
      Tree.inRelationshipType_alike (stop_of_read one two (alike _ _) rfl)]
  rw [atEnd_of_read (read word named), atEnd_of_read (read other also),
    fromGrammar_of_read (read word named) (read other also) (alike _ _),
    fromTree_of_read (read word named) (read other also) (alike _ _) rfl filled]

/-- The same is offered for one word as for another, or else both fit nowhere. -/
theorem atEnd_of_word
    (onward : ∀ word, IsName word → Stream.ofText (before.toList ++ word) =
      endingWith front ⟨Lexeme.wordKind word, word, place, front.length⟩)
    (named : IsName word.toList) (also : IsName other.toList)
    (first : Guarded limits (before ++ word))
    (second : Guarded limits (before ++ other)) :
    atEnd limits (before ++ word) catalog false = atEnd limits (before ++ other) catalog false := by
  have read (word : String) (named : IsName word.toList) :
      Stream.ofText (before ++ word).toList =
        endingWith front ⟨Lexeme.wordKind word.toList, word.toList, place, front.length⟩ := by
    rw [String.toList_append]
    exact onward word.toList named
  have alike (one two : List Char) :
      Alike ⟨Lexeme.wordKind one, one, place, front.length⟩
        ⟨Lexeme.wordKind two, two, place, front.length⟩ :=
    alike_of_words (isWordKind_wordKind one) (isWordKind_wordKind two)
  have grammar (typed : String) (name : IsName typed.toList) :
      fromGrammar limits (parse limits (before ++ typed)) catalog =
        fromGrammar limits (parse limits (before ++ word)) catalog :=
    fromGrammar_of_read (read typed name) (read word named) (alike _ _)
  rw [atEnd_of_read (read word named), atEnd_of_read (read other also), grammar other also]
  cases nothing : fromGrammar limits (parse limits (before ++ word)) catalog with
  | some items => rfl
  | none =>
    have tree (typed : String) (name : IsName typed.toList)
        (guarded : Guarded limits (before ++ typed)) :
        fromTree limits (parse limits (before ++ typed)) catalog = none := by
      have filled := read (typed ++ filler) (isName_filler name)
      have walked := candidatesOf_endingWith limits (follows_of_read filled)
        (follows_of_read (read typed name)) (alike _ _)
      rw [← filled, ← read typed name] at walked
      have whole : (parse limits (before ++ typed)).stream.isWhole := by
        rw [stream_of_read (read typed name)]
        rfl
      have stopped := stop_of_nothing (read typed name) (isWordKind_wordKind _)
        ((grammar typed name).trans nothing) guarded.parsed
      have stoppedToo := stop_of_nothing filled (isWordKind_wordKind _)
        ((grammar _ (isName_filler name)).trans nothing) fun deep => by
          rw [← String.append_assoc]
          exact guarded.filled (walked ▸ deep)
      rw [← String.append_assoc] at stoppedToo
      rw [fromTree, structural_of_root whole stopped]
      exact structuralFilled_of_root stoppedToo
    rw [tree word named first, tree other also second]

/-- Two functions with names that begin alike. -/
def castAndCxy : Catalog :=
  { functions := [(.ofString "cast", ⟨.ofString "cast", .null⟩),
      (.ofString "cxy", ⟨.ofString "cxy", .null⟩)] }

end CypherAssist.Completion
