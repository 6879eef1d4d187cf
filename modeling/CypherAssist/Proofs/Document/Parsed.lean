import CypherAssist.Proofs.Document.Misfit

/-! The ways in which a text is parsed, told by its tokens: they nest too deeply, make up a
document, are the beginning of one, or have a first misfit. What the tree holds and which problem is
found follows from the way alone. -/
namespace CypherAssist.Document
open Token Grammar Outcomes

variable {limits : Limits}

/-- The tree of a derivation that covers so many tokens; the others hang off the root. -/
def plant (stream : Stream) (isPartial : Bool) (children : List Derivation) (count : Nat) : Tree :=
  .node Grammar.start isPartial (Tree.ofDerivations stream.visible.toArray children ++
    ((stream.visible.drop count).map .misfit ++ [.leaf stream.last]))

/-- The kinds of the visible tokens of a stream. -/
abbrev visibleKinds (stream : Stream) : List Kind := stream.visible.map (·.kind)

/-- A stream is parsed into a tree, with these problems beside those of reading the text. -/
inductive Parsed (limits : Limits) (stream : Stream) : Tree → List Issue → Prop where
  | tooDeep (gaveUp : derive limits stream.visible.toArray = .error .tooDeep) :
    Parsed limits stream (plant stream true [] 0) [⟨.tooDeep, stream.last⟩]
  | complete (ran : derive limits stream.visible.toArray = .ok (found, state))
    (word : Word cypher (.reference Grammar.start) (visibleKinds stream))
    (covered : Derivation.leavesOfAll children = List.range stream.visible.length) :
    Parsed limits stream (plant stream false children stream.visible.length) []
  | unfinished (ran : derive limits stream.visible.toArray = .ok (found, state))
    (viable : Viable cypher Grammar.start (visibleKinds stream))
    (incomplete : ¬ Word cypher (.reference Grammar.start) (visibleKinds stream))
    (covered : Derivation.leavesOfAll children = List.range stream.visible.length) :
    Parsed limits stream (plant stream true children stream.visible.length)
      (if stream.visible.isEmpty then [] else [⟨.unexpectedEnd state.expected, stream.last⟩])
  | misfit (ran : derive limits stream.visible.toArray = .ok (found, state))
    (stops : StopsAt (visibleKinds stream) count)
    (offending : stream.visible[count]? = some token)
    (again : derive limits (stream.visible.toArray.take count) = .ok (seen, later))
    (rooted : seen.reaches (.upTo count) ∨ seen.reaches .cut)
    (before : deriveBefore limits stream.visible.toArray count =
      some (.node Grammar.start isPartial children))
    (covered : Derivation.leavesOfAll children = List.range count) :
    Parsed limits stream (plant stream isPartial children count)
      [⟨.unexpected token.text state.expected, token⟩]

variable {visible : Array Token}

/-- What is derived for a whole text is a node over all tokens up to its end. -/
theorem node_of_derive {reach : Reach} (ran : derive limits visible = .ok (found, state))
    (kept : found.at? reach = some derivation) :
    ∃ children, derivation = .node Grammar.start (reach = .cut) children ∧
      Derivation.leavesOfAll children = List.range (reach.stop visible.size) := by
  have member := mem_of_at? kept
  rw [(derive_exact ran).1] at member
  have derives := reading_sound cypher (kindsOf visible) _ _ _ _ member
  cases derives with
  | reference defined body =>
    have covered := (leaves_of_derives body (Nat.zero_le _)).2.2
    rw [length_kindsOf, Nat.sub_zero, ← List.range_eq_range'] at covered
    exact ⟨_, rfl, covered⟩

theorem word_iff_reaches (ran : derive limits visible = .ok (found, state)) :
    Word cypher (.reference Grammar.start) (kindsOf visible) ↔
      found.reaches (.upTo visible.size) := by
  rw [(derive_exact ran).1, ← length_kindsOf]
  exact word_iff_reading cypher_leftRecursionFree

theorem viable_iff_reaches (ran : derive limits visible = .ok (found, state)) :
    Viable cypher Grammar.start (kindsOf visible) ↔
      found.reaches (.upTo visible.size) ∨ found.reaches .cut := by
  rw [(derive_exact ran).1, ← length_kindsOf]
  exact viable_iff_reading

/-- The tokens before the first misfit have a derivation of their own, which covers all of them. -/
theorem deriveBefore_of_stopsAt (stops : StopsAt (kindsOf visible) count)
    (inside : count < visible.size) (ran : derive limits visible = .ok (found, state)) :
    ∃ seen later isPartial children, derive limits (visible.take count) = .ok (seen, later) ∧
      (seen.reaches (.upTo count) ∨ seen.reaches .cut) ∧
      deriveBefore limits visible count = some (.node Grammar.start isPartial children) ∧
      Derivation.leavesOfAll children = List.range count := by
  obtain ⟨seen, later, again⟩ := derive_take stops inside ran
  have size : (visible.take count).size = count := by simp [Nat.le_of_lt inside]
  have viable := stops.viable
  rw [← kindsOf_take, viable_iff_reaches again, size] at viable
  refine ⟨seen, later, ?_⟩
  rw [deriveBefore, again]
  simp only
  cases ended : seen.at? (.upTo count) with
  | some derivation =>
    obtain ⟨children, rfl, covered⟩ := node_of_derive again ended
    exact ⟨_, children, trivial, viable, rfl, covered⟩
  | none =>
    cases broken : seen.at? .cut with
    | some derivation =>
      obtain ⟨children, rfl, covered⟩ := node_of_derive again broken
      exact ⟨_, children, trivial, viable, rfl, by rwa [Reach.stop, size] at covered⟩
    | none => exact absurd viable (not_or.mpr ⟨at?_eq_none_iff.mp ended, at?_eq_none_iff.mp broken⟩)

/-- No token of a beginning is out of place. -/
theorem not_unexpected_of_parsed {stream : Stream} {tree : Tree} {issues : List Issue}
    (parsed : Parsed limits stream tree issues)
    (viable : Viable cypher Grammar.start (visibleKinds stream)) :
    ∀ issue ∈ issues, ∀ seen expected, issue.problem ≠ .unexpected seen expected := by
  intro issue member seen expected problem
  cases parsed with
  | tooDeep =>
    cases List.mem_singleton.mp member
    cases problem
  | complete => cases member
  | unfinished =>
    split at member
    · cases member
    · cases List.mem_singleton.mp member
      cases problem
  | misfit _ stops offending =>
    -- The first misfit would stand behind a beginning that is as long as all of the tokens.
    have all := (viable_iff_of_stopsAt stops).mp viable
    have inside := (List.getElem?_eq_some_iff.mp offending).1
    rw [List.length_map] at all
    omega

/-- A document has no problem but, perhaps, that it nests too deeply. -/
theorem tooDeep_of_parsed {stream : Stream} {tree : Tree} {issues : List Issue}
    (parsed : Parsed limits stream tree issues)
    (word : Word cypher (.reference Grammar.start) (visibleKinds stream)) :
    ∀ issue ∈ issues, issue.problem = .tooDeep := by
  intro issue member
  cases parsed with
  | tooDeep =>
    cases List.mem_singleton.mp member
    rfl
  | complete => cases member
  | unfinished _ _ incomplete => exact absurd word incomplete
  | misfit ran stops offending again rooted before covered =>
    cases List.mem_singleton.mp member
    exact absurd rfl (not_unexpected_of_parsed
      (.misfit ran stops offending again rooted before covered) (viable_of_word word) _
      (List.mem_singleton_self _) _ _)

/-- Every text is parsed in one of these ways. -/
theorem parse_parsed (limits : Limits) (text : String) :
    ∃ issues, Parsed limits (parse limits text).stream (parse limits text).tree issues ∧
      (parse limits text).issues = lexicalIssues (parse limits text).stream ++ issues := by
  obtain ⟨stream, streamEq⟩ : ∃ stream, stream = Stream.ofText text.toList := ⟨_, rfl⟩
  have same : (parse limits text).stream = stream := streamEq.symm
  have kinds : kindsOf stream.visible.toArray = visibleKinds stream := by simp [kindsOf]
  have size : stream.visible.toArray.size = stream.visible.length := List.size_toArray
  have length : (visibleKinds stream).length = stream.visible.length := List.length_map _
  rw [same]
  simp only [parse, result, ← streamEq]
  cases ran : derive limits stream.visible.toArray with
  | error obstacle =>
    obtain ⟨rfl, -⟩ := tooDeep_of_derive ran
    exact ⟨_, .tooDeep ran, rfl⟩
  | ok outcome =>
    obtain ⟨found, state⟩ := outcome
    have word := word_iff_reaches ran
    have viable := viable_iff_reaches ran
    rw [kinds] at word viable
    simp only
    cases ended : found.at? (.upTo stream.visible.toArray.size) with
    | some derivation =>
      obtain ⟨children, rfl, covered⟩ := node_of_derive ran ended
      have reached := reaches_iff.mpr ⟨_, mem_of_at? ended⟩
      exact ⟨_, .complete ran (word.mpr reached) covered, rfl⟩
    | none =>
      have notEnded := at?_eq_none_iff.mp ended
      cases broken : found.at? .cut with
      | some derivation =>
        obtain ⟨children, rfl, covered⟩ := node_of_derive ran broken
        have reached := reaches_iff.mpr ⟨_, mem_of_at? broken⟩
        refine ⟨_, .unfinished ran (viable.mpr (.inr reached))
          (fun whole => notEnded (word.mp whole)) covered, ?_⟩
        simp only [List.isEmpty_toArray]
      | none =>
        have notViable : ¬ Viable cypher Grammar.start (visibleKinds stream) := fun begins =>
          (viable.mp begins).elim notEnded (at?_eq_none_iff.mp broken)
        obtain ⟨count, stops⟩ := exists_stopsAt (visibleKinds stream)
        have inside : count < stream.visible.length := by
          refine Nat.lt_of_le_of_ne (length ▸ stops.within) fun whole => notViable ?_
          exact (viable_iff_of_stopsAt stops).mpr (whole.trans length.symm)
        have recalls := (derive_exact ran).2.2
        rw [kinds] at recalls
        rw [← kinds] at stops
        obtain ⟨seen, later, isPartial, children, again, rooted, before, covered⟩ :=
          deriveBefore_of_stopsAt stops (by omega) ran
        rw [kinds] at stops
        have consumed : min state.farthest stream.visible.toArray.size = count := by
          rw [(expected_of_stopsAt stops recalls).1]
          omega
        have offending : stream.visible[count]? = some stream.visible[count] :=
          List.getElem?_eq_getElem inside
        simp only [consumed, List.getElem?_toArray, offending, Option.getD_some, before]
        exact ⟨_, .misfit ran stops offending again rooted before covered, rfl⟩

/-- A text without problems is read to its end, and its visible tokens, if any, are a document. -/
theorem document_of_valid {text : String} (valid : (parse limits text).issues = [])
    (begun : (parse limits text).stream.visible ≠ []) :
    (parse limits text).stream.unterminated? = none ∧
      Word cypher (.reference Grammar.start) (visibleKinds (parse limits text).stream) := by
  obtain ⟨issues, parsed, all⟩ := parse_parsed limits text
  obtain ⟨lexical, rfl⟩ := List.append_eq_nil_iff.mp (all.symm.trans valid)
  refine ⟨by simpa [lexicalIssues] using lexical, ?_⟩
  generalize (parse limits text).tree = tree at parsed
  generalize none : ([] : List Issue) = issues at parsed
  cases parsed with
  | complete _ document => exact document
  | tooDeep | misfit => cases none
  | unfinished =>
    rw [if_neg (by simpa using begun)] at none
    cases none

/-- A text whose visible tokens are the beginning of a document has none that does not fit. -/
theorem not_unexpected_of_viable {text : String}
    (viable : Viable cypher Grammar.start (visibleKinds (parse limits text).stream)) :
    ∀ issue ∈ (parse limits text).issues, ∀ seen expected,
      issue.problem ≠ .unexpected seen expected := by
  intro issue member
  obtain ⟨issues, parsed, all⟩ := parse_parsed limits text
  rw [all, List.mem_append] at member
  rcases member with lexical | grammatical
  · obtain ⟨what, -, rfl⟩ := List.mem_map.mp lexical
    simp
  · exact not_unexpected_of_parsed parsed viable issue grammatical

end CypherAssist.Document
