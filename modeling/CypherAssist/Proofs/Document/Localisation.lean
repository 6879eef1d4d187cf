import CypherAssist.Proofs.Document.Parsed

/-! Where a text goes wrong. The problem found stands at the first token with which the text is no
longer the beginning of a document, and lists exactly the kinds of token that would have fitted
there. -/
namespace CypherAssist

variable {limits : Limits}

namespace Tree

mutual

/-- The misfits of a tree from left to right. -/
def misfits : Tree → List Token
  | .leaf _ => []
  | .misfit token => [token]
  | .node _ _ children => misfitsOfAll children

/-- The misfits of several trees in turn. -/
def misfitsOfAll : List Tree → List Token
  | [] => []
  | tree :: rest => tree.misfits ++ misfitsOfAll rest

end

theorem misfitsOfAll_append (first second : List Tree) :
    misfitsOfAll (first ++ second) = misfitsOfAll first ++ misfitsOfAll second := by
  induction first with
  | nil => rfl
  | cons tree rest ih => rw [List.cons_append, misfitsOfAll, misfitsOfAll, ih, List.append_assoc]

theorem misfitsOfAll_map_misfit (tokens : List Token) :
    misfitsOfAll (tokens.map .misfit) = tokens := by
  induction tokens with
  | nil => rfl
  | cons token rest ih => rw [List.map_cons, misfitsOfAll, ih]; rfl

mutual

/-- What is derived holds no misfits. -/
theorem misfitsOfAll_ofDerivation (visible : Array Token) :
    ∀ derivation, misfitsOfAll (ofDerivation visible derivation) = []
  | .token position => by
    rw [ofDerivation]
    cases visible[position]? <;> rfl
  | .node rule isPartial children => by
    simp only [ofDerivation, misfitsOfAll, misfits, List.append_nil]
    exact misfitsOfAll_ofDerivations visible children

theorem misfitsOfAll_ofDerivations (visible : Array Token) :
    ∀ derivations, misfitsOfAll (ofDerivations visible derivations) = []
  | [] => rfl
  | derivation :: rest => by
    rw [ofDerivations, misfitsOfAll_append, misfitsOfAll_ofDerivation visible derivation,
      misfitsOfAll_ofDerivations visible rest]
    rfl

end

end Tree

namespace Document
open Token Grammar

theorem misfits_plant (stream : Stream) (isPartial : Bool) (children : List Derivation)
    (count : Nat) :
    (plant stream isPartial children count).misfits = stream.visible.drop count := by
  rw [plant, Tree.misfits, Tree.misfitsOfAll_append, Tree.misfitsOfAll_append,
    Tree.misfitsOfAll_ofDerivations, Tree.misfitsOfAll_map_misfit]
  simp [Tree.misfitsOfAll, Tree.misfits]

/-- A text nests too deeply exactly where a problem says so. -/
theorem not_tooDeep_iff (text : String) :
    (∀ issue ∈ (parse limits text).issues, issue.problem ≠ .tooDeep) ↔
      ∃ found state,
        derive limits (parse limits text).stream.visible.toArray = .ok (found, state) := by
  obtain ⟨issues, parsed, all⟩ := parse_parsed limits text
  have lexical : ∀ issue ∈ lexicalIssues (parse limits text).stream, issue.problem ≠ .tooDeep := by
    intro issue member
    obtain ⟨what, -, rfl⟩ := List.mem_map.mp member
    simp
  rw [all, List.forall_mem_append, and_iff_right lexical]
  generalize (parse limits text).tree = planted at parsed
  cases parsed with
  | tooDeep gaveUp => simp [gaveUp]
  | complete ran => simp [ran]
  | unfinished ran =>
    refine ⟨fun _ => ⟨_, _, ran⟩, fun _ => ?_⟩
    split <;> simp
  | misfit ran => simp [ran]

/-- The first misfit of a document is its token at a place: the tokens before it, and no more, are
the beginning of some document. It is the problem found, every token from it on hangs off the root,
and what was expected there is what could have followed. -/
structure FirstMisfit (limits : Limits) (document : Document) (state : ParserState) (count : Nat)
    (token : Token) : Prop where
  offending : document.stream.visible[count]? = some token
  begins : Viable cypher Grammar.start ((visibleKinds document.stream).take count)
  longest : ∀ place, count < place → place ≤ (visibleKinds document.stream).length →
    ¬ Viable cypher Grammar.start ((visibleKinds document.stream).take place)
  issues : document.issues = lexicalIssues document.stream ++
    [⟨.unexpected token.text state.expected, token⟩]
  expected : ∀ kind, kind ∈ state.expected ↔
    Viable cypher Grammar.start ((visibleKinds document.stream).take count ++ [kind])
  again : ∃ found later,
    derive limits (document.stream.visible.toArray.take count) = .ok (found, later) ∧
    (found.reaches (.upTo count) ∨ found.reaches .cut)
  rooted : ∃ isPartial children,
    deriveBefore limits document.stream.visible.toArray count =
      some (.node Grammar.start isPartial children)
  misfits : document.tree.misfits = document.stream.visible.drop count

/-- A document without misfits that has not come to its end: all its tokens are in their places, and
what is expected is what can follow them. An empty text is no problem. -/
structure Unfinished (document : Document) (state : ParserState) : Prop where
  misfits : document.tree.misfits = []
  issues : document.issues = lexicalIssues document.stream ++
    if document.stream.visible.isEmpty then []
    else [⟨.unexpectedEnd state.expected, document.stream.last⟩]
  expected : ∀ kind, kind ∈ state.expected ↔
    Viable cypher Grammar.start (visibleKinds document.stream ++ [kind])

/-- What parsing expects behind the longest beginning of a document. -/
theorem expected_iff {stream : Stream}
    (ran : derive limits stream.visible.toArray = .ok (found, state))
    (stops : StopsAt (visibleKinds stream) count) (kind : Kind) :
    kind ∈ state.expected ↔
      Viable cypher Grammar.start ((visibleKinds stream).take count ++ [kind]) := by
  have kinds : kindsOf stream.visible.toArray = visibleKinds stream := by simp [kindsOf]
  have recalls := (derive_exact ran).2.2
  rw [kinds] at recalls
  exact (expected_of_stopsAt stops recalls).2 kind

/-- Unless a text nests too deeply, it is parsed with one problem at the first token with which it
is no longer the beginning of a document. If there is no such token and the text is not a document
yet, the kinds expected are those that can follow. -/
theorem parse_locates_misfit (text : String)
    (shallow : ∀ issue ∈ (parse limits text).issues, issue.problem ≠ .tooDeep) :
    ∃ found state, derive limits (parse limits text).stream.visible.toArray = .ok (found, state) ∧
      (¬ Viable cypher Grammar.start (visibleKinds (parse limits text).stream) →
        ∃ count token, FirstMisfit limits (parse limits text) state count token) ∧
      (Viable cypher Grammar.start (visibleKinds (parse limits text).stream) →
        ¬ Word cypher (.reference Grammar.start) (visibleKinds (parse limits text).stream) →
          Unfinished (parse limits text) state) := by
  obtain ⟨found, state, ran⟩ := (not_tooDeep_iff text).mp shallow
  refine ⟨found, state, ran, ?_⟩
  obtain ⟨issues, parsed, all⟩ := parse_parsed limits text
  generalize tree : (parse limits text).tree = planted at parsed
  cases parsed with
  | tooDeep gaveUp => rw [ran] at gaveUp; cases gaveUp
  | complete _ word =>
    exact ⟨fun notViable => absurd (viable_of_word word) notViable,
      fun _ incomplete => absurd word incomplete⟩
  | unfinished other viable incomplete =>
    cases ran.symm.trans other
    refine ⟨fun notViable => absurd viable notViable, fun _ _ => ⟨?_, all, fun kind => ?_⟩⟩
    · rw [tree, misfits_plant, List.drop_length]
    · obtain ⟨count, stops⟩ := exists_stopsAt (visibleKinds (parse limits text).stream)
      have whole := (viable_iff_of_stopsAt stops).mp viable
      rw [expected_iff ran stops, whole, List.take_length]
  | misfit other stops offending again rooted before =>
    rename_i count token _ _ _ _ _
    cases ran.symm.trans other
    have inside := (List.getElem?_eq_some_iff.mp offending).1
    refine ⟨fun _ => ⟨count, token, ?_⟩, fun viable => ?_⟩
    · exact
        { offending := offending
          begins := stops.viable
          longest := fun place later within viable =>
            absurd (le_of_viable_take stops within viable) (Nat.not_le_of_lt later)
          issues := all
          expected := expected_iff ran stops
          again := ⟨_, _, again, rooted⟩
          rooted := ⟨_, _, before⟩
          misfits := by rw [tree, misfits_plant] }
    · have whole := (viable_iff_of_stopsAt stops).mp viable
      rw [List.length_map] at whole
      omega

/-- A closing bracket too many is found where it stands. -/
theorem bracket_too_many_located :
    (∀ issue ∈ (parse ⟨3000, 3000⟩ "MATCH (n) RETURN n )").issues, issue.problem ≠ .tooDeep) ∧
      ∃ state token,
        FirstMisfit ⟨3000, 3000⟩ (parse ⟨3000, 3000⟩ "MATCH (n) RETURN n )") state 6 token ∧
          token.text = ")" := by
  have tokens :
      (parse ⟨3000, 3000⟩ "MATCH (n) RETURN n )").stream.visible.map
      (fun token => (token.kind, token.text)) =
        [(.keyword .MATCH, "MATCH"), (.symbol .leftParen, "("), (.plainName, "n"),
          (.symbol .rightParen, ")"), (.keyword .RETURN, "RETURN"), (.plainName, "n"),
          (.symbol .rightParen, ")")] := by
    decide +kernel
  have kinds : visibleKinds (parse ⟨3000, 3000⟩ "MATCH (n) RETURN n )").stream =
      [.keyword .MATCH, .symbol .leftParen, .plainName, .symbol .rightParen, .keyword .RETURN,
        .plainName, .symbol .rightParen] := by
    have firsts := congrArg (List.map Prod.fst) tokens
    rwa [List.map_map] at firsts
  have size : (parse ⟨3000, 3000⟩ "MATCH (n) RETURN n )").stream.visible.length = 7 := by
    simpa using congrArg List.length tokens
  have shallow := (not_tooDeep_iff "MATCH (n) RETURN n )").mpr
    (derive_of_short (by rw [List.size_toArray, size]; decide))
  refine ⟨shallow, ?_⟩
  obtain ⟨found, state, -, misfit, -⟩ := parse_locates_misfit "MATCH (n) RETURN n )" shallow
  obtain ⟨count, token, first⟩ := misfit (by rw [kinds]; decide +kernel)
  have place : count = 6 := by
    have inside := (List.getElem?_eq_some_iff.mp first.offending).1
    by_contra other
    exact first.longest 6 (by omega) (by rw [kinds]; decide) (by rw [kinds]; decide +kernel)
  subst place
  have last := congrArg (fun all => all[6]?.map Prod.snd) tokens
  simp only [List.getElem?_map, first.offending, Option.map_some] at last
  exact ⟨state, token, first, Option.some.inj last⟩

end Document

end CypherAssist
