import CypherAssist.Proofs.Grammar.Acceptance
import CypherAssist.Proofs.Grammar.Backing
import CypherAssist.Proofs.Token.Stream

/-! The two readers of a grammar agree. Where no rule is preferred, the tokens that a walk finds for
the caret are those that a parser of the tokens before the caret asks for behind the last of them.
Neither knows of the other; both are set against the readings of the language. -/
namespace CypherAssist.Grammar
open Token

/-- The visible tokens before the first one whose index is not below the caret. -/
def tokensBefore (caret : Nat) (stream : Stream) : List Token :=
  stream.visible.takeWhile fun token => token.index < caret

variable {caret : Nat} {grammar : Grammar} {input : List Kind} {kind : Kind}

theorem tokensUntil_ne_nil {tokens : List Token} {last : Token} (shown : last.isHidden = false) :
    tokensUntil caret (tokens ++ [last]) ≠ [] := by
  induction tokens with
  | nil => simp [tokensUntil, shown]
  | cons token rest ih =>
    rw [List.cons_append, tokensUntil]
    split
    · exact ih
    · split <;> exact List.cons_ne_nil _ _

theorem dropLast_tokensUntil_append {tokens : List Token} {last : Token}
    (shown : last.isHidden = false) (inner : ∀ token ∈ tokens, token.isEnd = false) :
    (tokensUntil caret (tokens ++ [last])).dropLast =
      (tokens.filter fun token => !token.isHidden).takeWhile fun token => token.index < caret := by
  induction tokens with
  | nil => by_cases reached : caret ≤ last.index <;> simp [tokensUntil, shown, reached]
  | cons token rest ih =>
    have others := ih fun other member => inner other (List.mem_cons_of_mem _ member)
    rw [List.cons_append, tokensUntil, inner token (by simp), Bool.or_false]
    by_cases hidden : token.isHidden
    · simp [hidden, others]
    · by_cases reached : caret ≤ token.index
      · simp [hidden, reached]
      · simp [hidden, reached, others, List.dropLast_cons_of_ne_nil (tokensUntil_ne_nil shown),
          Nat.lt_of_not_le reached]

/-- In a text there is always a token to stand at. -/
theorem tokensUntil_ofText_ne_nil (caret : Nat) (chars : List Char) :
    tokensUntil caret (Stream.ofText chars).toList ≠ [] :=
  tokensUntil_ne_nil (Stream.isHidden_last chars)

/-- The token under the caret is the first visible one not below the caret. -/
theorem dropLast_tokensUntil_ofText (caret : Nat) (chars : List Char) :
    (tokensUntil caret (Stream.ofText chars).toList).dropLast =
      tokensBefore caret (Stream.ofText chars) :=
  dropLast_tokensUntil_append (Stream.isHidden_last chars)
    fun _ member => Stream.isEnd_of_mem_body member

/-- A parser asks for a kind of token behind the last token where some reading does. -/
theorem expected_at_end {state : ParserState}
    (recalls : Recalls (tries grammar input (.reference rule) 0) state) (kind : Kind) :
    (state.farthest = input.length ∧ kind ∈ state.expected) ↔
      Awaits grammar anyRule (.reference rule) input kind := by
  have whole : (input.drop 0).take (input.length - 0) = input := by simp
  constructor
  · rintro ⟨atEnd, expected⟩
    obtain ⟨meets, -⟩ := recalls.source kind expected
    have awaits := ((meets_iff (Nat.zero_le _)).mp meets).2.2
    rwa [atEnd, whole] at awaits
  · intro awaits
    have tried : (input.length, kind) ∈ tries grammar input (.reference rule) 0 :=
      ⟨(meets_iff (Nat.zero_le _)).mpr ⟨Nat.zero_le _, Nat.le_refl _, by rwa [whole]⟩, by simp⟩
    rcases recalls.noted _ _ tried with beyond | ⟨atEnd, expected⟩
    · exfalso
      cases asked : state.expected with
      | nil =>
        rw [recalls.origin asked] at beyond
        exact Nat.not_lt_zero _ beyond
      | cons other rest =>
        obtain ⟨meets, -⟩ := recalls.source other (by simp [asked])
        have within := ((meets_iff (Nat.zero_le _)).mp meets).2.1
        simp only at within
        omega
    · exact ⟨atEnd.symm, expected⟩

/-- Without preferred rules nothing is hidden. -/
theorem discreet_of_none (tokens : Array Token) (ignored : List Kind) :
    Discreet grammar ⟨tokens, [], ignored⟩ where
  solid _ preferred := by simp [Caret.prefers] at preferred
  quiet _ _ _ preferred := by simp [Caret.prefers] at preferred

/-- For every grammar without left recursion, a walk to a caret in a text and a parser of the
visible tokens before the caret agree: the kinds of token found are those expected at the end, but
for those ignored, and none where the parser got stuck before the end. No rule is found. Both get
through where the rules are defined and the depth suffices. -/
theorem collector_and_parser_agree (grammar : Grammar) (start : Rule) (chars : List Char)
    (caret : Nat) (ignored : List Kind) (free : LeftRecursionFree grammar) :
    (∀ walkDepth parseDepth candidates found state,
      collect grammar start (Stream.ofText chars).toList caret [] ignored walkDepth =
        .ok candidates →
      parseFrom grammar ((tokensBefore caret (Stream.ofText chars)).map (·.kind)).toArray parseDepth
        start 0 = .ok (found, state) →
      candidates.rules = [] ∧ ∀ kind, (∃ candidate ∈ candidates.tokens, candidate.kind = kind) ↔
        state.farthest = (tokensBefore caret (Stream.ofText chars)).length ∧
          kind ∈ state.expected ∧ kind ∉ ignored) ∧
    (Closed grammar → (grammar start).isSome → ∀ depth,
      fullDepth (tokensBefore caret (Stream.ofText chars)).length ≤ depth →
      (∃ candidates, collect grammar start (Stream.ofText chars).toList caret [] ignored depth =
        .ok candidates) ∧
      ∃ found state, parseFrom grammar
        ((tokensBefore caret (Stream.ofText chars)).map (·.kind)).toArray depth start 0 =
          .ok (found, state)) := by
  have before := dropLast_tokensUntil_ofText caret chars
  have walks (depth : Nat) := collect_tokens free start (Stream.ofText chars).toList caret []
    ignored depth (tokensUntil_ofText_ne_nil caret chars) (discreet_of_none _ _)
  rw [before] at walks
  refine ⟨fun walkDepth parseDepth candidates found state walked parsed => ⟨?_, fun kind => ?_⟩,
    fun closed defined depth deep => ⟨?_, ?_⟩⟩
  · refine List.eq_nil_iff_forall_not_mem.mpr fun candidate member => ?_
    simpa [Caret.prefers] using ((collect_backed walked).rules candidate member).1
  · have performs := performs_of_parsed free parsed
    have expected := expected_at_end performs.2 kind
    have found := walks walkDepth
    simp only [walked, List.not_mem_nil, not_false_eq_true] at found
    rw [List.length_map] at expected
    rw [found kind, ← and_assoc, expected, and_comm]
    rfl
  · have walked := walks depth
    split at walked
    · have size := congrArg List.length before
      rw [List.length_dropLast] at size
      rw [size] at walked
      have short := (tooDeep_of_excuse closed defined walked).2
      have bound := burden_lt_fullDepth free (tokensBefore caret (Stream.ofText chars)).length
        start 0
      omega
    · exact ⟨_, ‹_›⟩
  · exact parseFrom_succeeds free closed defined (by simpa using deep) 0

/-- Behind the first word of a clause both ask for what an item may start with. -/
theorem both_ask_behind_return :
    LeftRecursionFree cypher ∧ ∃ candidates found state,
      collect cypher .statements (Stream.ofText "RETURN ".toList).toList 1 [] [.keyword .NOT]
        (fullDepth 1) = .ok candidates ∧
      parseFrom cypher #[.keyword .RETURN] (fullDepth 1) .statements 0 = .ok (found, state) ∧
      candidates.rules = [] ∧ (∃ candidate ∈ candidates.tokens, candidate.kind = .symbol .times) ∧
      ¬ ∃ candidate ∈ candidates.tokens, candidate.kind = .keyword .NOT := by
  have before : (tokensBefore 1 (Stream.ofText "RETURN ".toList)).map (·.kind) =
      [.keyword .RETURN] := by decide +kernel
  have size : (tokensBefore 1 (Stream.ofText "RETURN ".toList)).length = 1 := by
    simpa using congrArg List.length before
  obtain ⟨agrees, succeeds⟩ := collector_and_parser_agree cypher .statements "RETURN ".toList 1
    [.keyword .NOT] cypher_leftRecursionFree
  rw [before, size] at succeeds agrees
  obtain ⟨⟨candidates, walked⟩, found, state, parsed⟩ :=
    succeeds cypher_closed rfl (fullDepth 1) (Nat.le_refl _)
  obtain ⟨noRules, same⟩ := agrees _ _ _ _ _ walked parsed
  have performs := performs_of_parsed cypher_leftRecursionFree parsed
  have awaits : Awaits cypher anyRule (.reference .statements) [.keyword .RETURN]
      (.symbol .times) := (viable_append_iff cypher_productive).mp (by decide +kernel)
  obtain ⟨atEnd, expected⟩ := (expected_at_end performs.2 _).mpr awaits
  refine ⟨cypher_leftRecursionFree, candidates, found, state, walked, parsed, noRules,
    (same _).mpr ⟨atEnd, expected, by simp⟩, ?_⟩
  rw [same]
  simp

end CypherAssist.Grammar
