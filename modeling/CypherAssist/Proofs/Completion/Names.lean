import CypherAssist.Proofs.Completion.Keywords
import CypherAssist.Proofs.Grammar.Gate
import CypherAssist.Proofs.Grammar.Naming

/-! Names at the caret. Of the rules that completion prefers, a walk to the end of a text reports
those that some reading of the tokens before the caret arrives at. One may be missed: behind the
sign of a parameter a name of several parts is open around the parameter, which is walked once. If
the walk has come to it before, in an expression, the name is lost, and the candidates show it. -/
namespace CypherAssist.Completion
open Token Grammar

variable {limits : Limits}

/-- The caret at the end of a text. -/
def caretAtEnd (stream : Stream) : Caret :=
  caretAmong (tokensUntil (caretIndex stream) stream.toList)

theorem before_caretAtEnd (chars : List Char) :
    (caretAtEnd (Stream.ofText chars)).before = kindsBefore (Stream.ofText chars) := by
  rw [caretAtEnd, caretAmong, before_tokensUntil]

/-- Some path through the grammar over the tokens before the caret arrives at the rule at the caret,
or at a token there with the rule as the innermost preferred one that is open. -/
def Reached (stream : Stream) (rule : Rule) : Prop :=
  ∃ position outer, BacksRule cypher (caretAtEnd stream) Grammar.start rule position outer

variable {tokens : List Token} {rule : Rule} {asked : Kind}

/-- A preferred rule that is open at the caret asks for a token of its own, but for a parameter in
the place of a name. -/
theorem cypher_outspoken (preferred : rule ∈ ({} : Config).preferred)
    (plain : rule = .symbolicAliasName →
      (caretAmong tokens).before.getLast? ≠ some (.symbol .dollar)) :
    Outspoken cypher (caretAmong tokens) rule := by
  intro element position asked defined earlier meets
  cases defined
  by_cases several : rule = .symbolicAliasName
  · subst several
    rcases dot_or_number earlier meets with ⟨-, told⟩ | ⟨-, sign⟩
    · exact told
    · exact absurd sign (plain rfl)
  · exact absurd (position_eq_of_preferred preferred several meets) (Nat.ne_of_lt earlier)

/-- In a text that is short, a preferred rule that some path arrives at is reported, but for a
parameter in the place of a name. -/
theorem exists_candidate_of_reached {text : String}
    (reached : Reached (Stream.ofText text.toList) rule)
    (short : Rule.all.length * ((kindsBefore (Stream.ofText text.toList)).length + 1) ≤
      limits.collecting)
    (preferred : rule ∈ ({} : Config).preferred)
    (plain : rule = .symbolicAliasName →
      (kindsBefore (Stream.ofText text.toList)).getLast? ≠ some (.symbol .dollar)) :
    ∃ candidates candidate, candidatesOf limits (Stream.ofText text.toList) = .ok candidates ∧
      candidate ∈ candidates.rules ∧ candidate.rule = rule := by
  obtain ⟨candidates, ran⟩ := exists_candidates_of_short short
  have outspoken : Outspoken cypher (caretAtEnd (Stream.ofText text.toList)) rule := by
    apply cypher_outspoken preferred
    intro several
    rw [caretAmong, before_tokensUntil]
    exact plain several
  obtain ⟨candidate, member, same⟩ := (collect_rules cypher_leftRecursionFree
    (tokensUntil_ofText_ne_nil _ _) (cypher_discreet _) ran rule).2 preferred outspoken reached
  exact ⟨candidates, candidate, ran, member, same⟩

/-! ## Behind the sign of a parameter -/

/-- Whether an element is the sign of a parameter. -/
def isSign : Element → Bool
  | .token (.symbol .dollar) => true
  | _ => false

/-- The sign of a parameter stands in parameters only. -/
theorem eq_parameter_of_sign
    (inside : .token (.symbol .dollar) ∈ (definition rule).subelements) : rule = .parameter := by
  have checked : ∀ rule ∈ Rule.all,
      (definition rule).subelements.any isSign → rule = .parameter := by decide +kernel
  exact checked rule (Rule.mem_all rule) (List.any_eq_true.mpr ⟨_, inside, rfl⟩)

theorem cypher_unending_sign : Unending cypher vanishes (.symbol .dollar) := by
  have checked : ∀ rule ∈ Rule.all,
      ¬ (definition rule).mayEnd vanishes (.symbol .dollar) := by decide +kernel
  intro rule element defined
  cases defined
  exact checked rule (Rule.mem_all rule)

/-- What a parameter may be, behind its sign. -/
def parameterValues : List Element := [.reference .symbolicNameString, .token .integer]

theorem definition_parameter :
    definition .parameter = .sequence [.token (.symbol .dollar), .choice parameterValues] := rfl

/-- The parts of a parameter stand at its sign or right behind it. -/
theorem place_le_of_comes_parameter {input : List Kind} {element : Element}
    {follow : List Element} {origin place : Nat}
    (comes : Comes cypher input (definition .parameter) origin element follow place) :
    place ≤ origin + 1 := by
  suffices element = definition .parameter ∧ place = origin ∨
      element = .token (.symbol .dollar) ∧ place = origin ∨
      (element = .choice parameterValues ∨ element ∈ parameterValues) ∧ place = origin + 1 by
    rcases this with ⟨-, same⟩ | ⟨-, same⟩ | ⟨-, same⟩ <;> omega
  induction comes with
  | whole => exact .inl ⟨rfl, rfl⟩
  | @part before item rest follow entry place outside passed ih =>
    rcases ih with ⟨same, rfl⟩ | ⟨same, -⟩ | ⟨same | within, -⟩
    · rw [definition_parameter, Element.sequence.injEq] at same
      match before with
      | [] =>
        cases same
        cases passed
        exact .inr (.inl ⟨rfl, rfl⟩)
      | [_] =>
        cases same
        cases passed with
        | sequence sign nothing =>
          cases sign
          cases nothing
          exact .inr (.inr ⟨.inl rfl, rfl⟩)
      | _ :: _ :: _ => simp at same
    · cases same
    · cases same
    · simp [parameterValues] at within
  | option _ member ih =>
    rcases ih with ⟨same, -⟩ | ⟨same, -⟩ | ⟨same | within, here⟩
    · cases same
    · cases same
    · cases same
      exact .inr (.inr ⟨.inr member, here⟩)
    · simp [parameterValues] at within
  | optional _ ih | repeated _ _ ih =>
    rcases ih with ⟨same, -⟩ | ⟨same, -⟩ | ⟨same | within, -⟩
    · cases same
    · cases same
    · cases same
    · simp [parameterValues] at within

/-- Behind the sign of a parameter a path stands in front of what it may be. -/
theorem stands_value {input : List Kind} {outer : List Frame} {follow : List Element} {entry : Nat}
    (parameter : Stands cypher input Grammar.start outer (.reference .parameter) follow entry)
    (sign : input[entry]? = some (.symbol .dollar)) :
    Stands cypher input Grammar.start (⟨.parameter, entry⟩ :: outer) (.choice parameterValues) []
      (entry + 1) :=
  stands_at [.token (.symbol .dollar)] (.enter parameter rfl) rfl (.sequence (.token sign) .empty)

/-- Right behind the sign of a parameter every path is in that parameter. -/
theorem gated_behind_sign (sign : (caretAmong tokens).before.getLast? = some (.symbol .dollar)) :
    Gated cypher (caretAmong tokens) Grammar.start .parameter
      ((caretAmong tokens).position - 1) := by
  refine gated_of_last cypher_vanishing cypher_unending_sign ?_ ?_ sign
  · intro rule element defined inside
    cases defined
    exact eq_parameter_of_sign inside
  · intro body origin element follow place defined comes
    cases defined
    exact place_le_of_comes_parameter comes

/-- A preferred rule that is open at a token at the caret is a name of several parts. -/
theorem several_of_open {stack inner outer : List Frame} {frame : Frame} {follow : List Element}
    (outside : (caretAmong tokens).Outside stack)
    (stands : Stands cypher (caretAmong tokens).before Grammar.start stack (.token asked) follow
      (caretAmong tokens).position)
    (split : stack = inner ++ frame :: outer) (clear : (caretAmong tokens).Clear inner)
    (preferred : (caretAmong tokens).prefers frame.rule) : frame.rule = .symbolicAliasName := by
  obtain ⟨body, defined, -, meets⟩ := exists_body_of_stands stands split clear .token
  cases defined
  by_contra single
  have here := position_eq_of_preferred (prefers_caretAmong.mp preferred) single meets
  exact outside frame (by simp [split]) (by simp [here, preferred])

/-- The candidate was found inside of a name of several parts. -/
def InSeveral (candidate : RuleCandidate) : Prop := .symbolicAliasName ∈ candidate.enclosing

/-- The candidates that are not names of several parts were found inside of one, all of them if one
is listed, and none if none is. -/
def NamesAgree (candidates : Candidates) : Prop :=
  ∀ candidate ∈ candidates.rules, candidate.rule ≠ .symbolicAliasName →
    (InSeveral candidate ↔ ∃ other ∈ candidates.rules, other.rule = .symbolicAliasName)

variable {stack : List Frame}

/-- A name at the caret is reported with the rules that are open around it. -/
theorem keeps_name (depth : Nat) :
    Preserves (fun state => ∀ candidate ∈ state.candidates.rules,
        candidate.rule ≠ .symbolicAliasName ∧
          (InSeveral candidate ↔ ∃ frame ∈ stack, frame.rule = .symbolicAliasName))
      (walkRule cypher (caretAmong tokens) depth .symbolicNameString (caretAmong tokens).position
        stack) := by
  have plain : ¬ (caretAmong tokens).prefers .symbolicNameString := by
    rw [prefers_caretAmong]
    decide
  cases depth with
  | zero => exact keeps_zero
  | succ depth =>
    refine keeps_rule (fun _ _ _ preferred => absurd preferred plain) (fun _ _ _ _ _ _ => trivial)
      (fun _ _ kept _ => kept) fun element _ defined => ?_
    cases defined
    have parts (part : Element) (inside : part ∈ (definition .symbolicNameString).subelements) :
        part = definition .symbolicNameString ∨ part = .reference .escapedSymbolicNameString ∨
          part = .reference .unescapedSymbolicNameString := by
      simpa using (show part ∈ [definition .symbolicNameString, _, _] from inside)
    refine keeps_mono (walk_keeps _ (fun kind place follow inside => ?_)
      (fun target place inside here => ?_) _ _ rfl)
      fun stop (_ : (caretAmong tokens).position = stop) => trivial
    · rcases parts _ inside with same | same | same <;> cases same
    · subst here
      have name : target ∈ ({} : Config).preferred ∧ target ≠ .symbolicAliasName := by
        rcases parts _ inside with same | same | same <;> cases same <;> decide
      cases depth with
      | zero => exact keeps_zero
      | succ depth =>
        intro state reached after kept ran
        rw [walkRule_apply, if_pos (by simp [prefers_caretAmong.mpr name.1])] at ran
        cases ran
        refine ⟨?_, List.forall_mem_nil _⟩
        unfold Candidates.addRule
        split
        · exact kept
        · refine List.forall_mem_append.mpr ⟨kept, List.forall_mem_singleton.mpr ⟨name.2, ?_⟩⟩
          simp [InSeveral, Caret.ruleAt]

/-- A walk through a parameter, from its sign right before the caret, asks for a name and then for
a number. -/
theorem exists_name_of_walk_parameter {depth entry : Nat} {state after : WalkState}
    {reached : List Nat} (next : entry + 1 = (caretAmong tokens).position)
    (sign : (caretAmong tokens).before[entry]? = some (.symbol .dollar))
    (ran : (definition .parameter).walk (caretAmong tokens)
      (walkRule cypher (caretAmong tokens) depth) entry stack [] state = .ok (reached, after)) :
    ∃ named middle, walkRule cypher (caretAmong tokens) depth .symbolicNameString
        (caretAmong tokens).position stack state = .ok (named, middle) ∧
      after = middle.report (caretAmong tokens) .integer stack [] := by
  have elsewhere : entry ≠ (caretAmong tokens).position := by omega
  rw [(caretAmong tokens).getElem?_before (by omega)] at sign
  simp only [definition_parameter, parameterValues, Element.walk, Element.walkInOrder,
    Element.walkAny, if_neg elsewhere, if_pos sign, if_pos next, List.foldlM_cons, List.foldlM_nil,
    pure_bind, bind_pure, union, List.nil_append] at ran
  obtain ⟨named, middle, walked, same⟩ := exists_of_bind_eq_ok ran
  cases same
  exact ⟨named, middle, next ▸ walked, rfl⟩

/-- The one visit of a parameter reports a name of several parts exactly if one is open around it,
which the names reported tell. -/
theorem decides_names {entry : Nat} (next : entry + 1 = (caretAmong tokens).position)
    (sign : (caretAmong tokens).before[entry]? = some (.symbol .dollar)) :
    Decides cypher (caretAmong tokens) Grammar.start .parameter entry NamesAgree := by
  intro depth outer body follow state reached after outside stands defined untouched ran
  cases defined
  obtain ⟨named, middle, walked, rfl⟩ := exists_name_of_walk_parameter next sign ran
  obtain ⟨names, -⟩ := keeps_name depth state named middle (by simp [untouched]) walked
  have deeper : (caretAmong tokens).Outside (⟨.parameter, entry⟩ :: outer) :=
    List.forall_mem_cons.mpr ⟨by simp; omega, outside⟩
  have number : Stands cypher (caretAmong tokens).before Grammar.start
      (⟨.parameter, entry⟩ :: outer) (.token .integer) [] (caretAmong tokens).position :=
    next ▸ (stands_value stands sign).option (by simp [parameterValues])
  rcases rules_report middle (caretAmong tokens) .integer (⟨.parameter, entry⟩ :: outer) [] with
    ⟨clear, same⟩ | ⟨inner, frame, below, split, clear, preferred, same⟩
  · rw [NamesAgree, same]
    intro candidate member single
    rw [(names candidate member).2]
    refine iff_of_false ?_ fun ⟨other, listed, several⟩ => (names other listed).1 several
    rintro ⟨frame, opened, several⟩
    exact clear frame opened (prefers_caretAmong.mpr (by simp [several]))
  · have several := several_of_open deeper number split clear preferred
    have fresh : ¬ middle.candidates.rules.any fun known => known.rule = frame.rule := by
      rw [List.any_eq_true]
      rintro ⟨known, listed, same⟩
      exact (names known listed).1 ((of_decide_eq_true same).trans several)
    have added : (middle.report (caretAmong tokens) .integer (⟨.parameter, entry⟩ :: outer)
        []).candidates.rules =
          middle.candidates.rules ++ [(caretAmong tokens).ruleAt frame.rule frame.start below] := by
      rw [same, Candidates.addRule]
      exact congrArg Candidates.rules (if_neg fresh)
    rw [NamesAgree, added]
    intro candidate member single
    have listed : candidate ∈ middle.candidates.rules :=
      (List.mem_append.mp member).resolve_right fun last =>
        single (List.mem_singleton.mp last ▸ several)
    refine iff_of_true ((names candidate listed).2.mpr ⟨frame, ?_, several⟩)
      ⟨_, List.mem_append_right _ (List.mem_singleton_self _), several⟩
    simp [split]

/-- Where the sign of a parameter stands right before the caret, a plain name may follow. -/
theorem name_told_behind_sign {element : Element} {follow : List Element}
    (sign : (caretAmong tokens).before.getLast? = some (.symbol .dollar))
    (outside : (caretAmong tokens).Outside stack)
    (stands : Stands cypher (caretAmong tokens).before Grammar.start stack element follow
      (caretAmong tokens).position) :
    Tells cypher (caretAmong tokens) .unescapedSymbolicNameString none
      (.reference Grammar.start) 0 := by
  have gated := gated_behind_sign sign
  obtain ⟨inner, outer, behind, rfl, -, entered⟩ := gated.passed _ _ _ outside stands
  have below : (caretAmong tokens).Outside (⟨.parameter, _⟩ :: outer) :=
    fun frame member => outside frame (List.mem_append_right inner member)
  have plain : ¬ (caretAmong tokens).prefers .symbolicNameString := by
    rw [prefers_caretAmong]
    decide
  have value := stands_value entered (getElem?_of_last sign)
  rw [Nat.sub_add_cancel (Nat.one_le_of_lt gated.early)] at value
  have name := (Stands.option value (List.mem_cons_self ..)).enter rfl
  have plainName := name.option (List.mem_cons_of_mem _ (List.mem_cons_self ..))
  exact tells_of_stands (List.forall_mem_cons.mpr ⟨by simp [plain], below⟩) plainName
    (.arrives (prefers_caretAmong.mpr (by decide)))

/-- Behind the sign of a parameter, where a path arrives at some rule, one arrives at a plain
name. -/
theorem name_told_of_reached
    (sign : (caretAmong tokens).before.getLast? = some (.symbol .dollar))
    (backs : ∃ position outer,
      BacksRule cypher (caretAmong tokens) Grammar.start rule position outer) :
    Tells cypher (caretAmong tokens) .unescapedSymbolicNameString none
      (.reference Grammar.start) 0 := by
  rcases backs with ⟨position, outer, ⟨rfl, outside, follow, stands⟩ |
    ⟨inner, kind, follow, clear, outside, stands⟩⟩
  · exact name_told_behind_sign sign outside stands
  · refine name_told_behind_sign sign (List.forall_mem_append.mpr ⟨?_, outside⟩) stands
    intro frame member entered
    exact clear frame member (Bool.and_eq_true_iff.mp entered).2

/-! ## The rules reported -/

/-- At the end of a text that is not nested too deeply, the rules reported are the preferred ones
that some path arrives at, with one exception. Right behind the sign of a parameter, a name of
several parts is lost if the walk came to the parameter outside of such a name first, where it found
all that it reports. -/
theorem names_at_end (text : String) (candidates : Candidates)
    (ran : candidatesOf limits (Stream.ofText text.toList) = .ok candidates) (rule : Rule) :
    (∃ candidate ∈ candidates.rules, candidate.rule = rule) ↔
      rule ∈ ({} : Config).preferred ∧ Reached (Stream.ofText text.toList) rule ∧
        (rule = .symbolicAliasName →
          (kindsBefore (Stream.ofText text.toList)).getLast? = some (.symbol .dollar) →
            ∃ candidate ∈ candidates.rules, InSeveral candidate) := by
  obtain ⟨sound, complete⟩ := collect_rules cypher_leftRecursionFree
    (tokensUntil_ofText_ne_nil _ _) (cypher_discreet _) ran rule
  have agree (sign : (caretAtEnd (Stream.ofText text.toList)).before.getLast? =
      some (.symbol .dollar)) : NamesAgree candidates := by
    have gated := gated_behind_sign sign
    have decides := decides_names (Nat.sub_add_cancel (Nat.one_le_of_lt gated.early))
      (getElem?_of_last sign)
    rcases collect_gated gated decides ran with rfl | agree
    · exact List.forall_mem_nil _
    · exact agree
  rw [← before_caretAtEnd]
  constructor
  · intro listed
    refine ⟨(sound listed).1, (sound listed).2, ?_⟩
    rintro rfl sign
    obtain ⟨name, member, single⟩ := collect_tells cypher_leftRecursionFree
      (tokensUntil_ofText_ne_nil _ _) (cypher_discreet _) ran
      (name_told_of_reached sign (sound listed).2)
    exact ⟨name, member, (agree sign name member (by simp [single])).mpr listed⟩
  · rintro ⟨preferred, reached, told⟩
    by_cases hidden : rule = .symbolicAliasName ∧
        (caretAtEnd (Stream.ofText text.toList)).before.getLast? = some (.symbol .dollar)
    · obtain ⟨rfl, sign⟩ := hidden
      obtain ⟨candidate, member, inside⟩ := told rfl sign
      by_cases single : candidate.rule = .symbolicAliasName
      · exact ⟨candidate, member, single⟩
      · exact (agree sign candidate member single).mp inside
    · exact complete preferred
        (cypher_outspoken preferred fun several sign => hidden ⟨several, sign⟩) reached

/-- The rules open where the clauses of a document's first query stand. -/
def firstQuery : List Frame :=
  [⟨.singleQuery, 0⟩, ⟨.regularQuery, 0⟩, ⟨.statement, 0⟩, ⟨.statements, 0⟩]

section
variable {input : List Kind} {place : Nat} {follow : List Element}

theorem stands_first_query :
    Stands cypher input Grammar.start firstQuery (definition .singleQuery) [] 0 := by
  have document : Stands cypher input Grammar.start [⟨.statements, 0⟩] (definition .statements) []
      0 := .enter .start rfl
  have statement := (stands_at [] document rfl .empty).enter rfl
  have regular := (statement.option (List.mem_cons_of_mem _ (List.mem_cons_self ..))).enter rfl
  exact (stands_at [] regular rfl .empty).enter rfl

/-- A clause that begins with the keyword for it names a graph next. -/
theorem stands_graph (clause : Stands cypher input Grammar.start stack (.reference .clause) follow
      place) (use : input[place]? = some (.keyword .USE)) :
    Stands cypher input Grammar.start (⟨.useClause, place⟩ :: ⟨.clause, place⟩ :: stack)
      (.reference .graphReference) [] (place + 1) := by
  have named := ((clause.enter rfl).option (List.mem_cons_self ..)).enter rfl
  exact stands_at [.token (.keyword .USE)] named rfl (.sequence (.token use) .empty)

end

/-- The rules open where the first clause of a document names a graph. -/
def namingGraph : List Frame :=
  [⟨.graphReference, 1⟩, ⟨.useClause, 0⟩, ⟨.clause, 0⟩] ++ firstQuery

theorem stands_graph_name {input : List Kind} (use : input[0]? = some (.keyword .USE)) :
    Stands cypher input Grammar.start namingGraph (.reference .symbolicAliasName) [] 1 :=
  ((stands_graph (stands_at [] stands_first_query rfl .empty) use).enter rfl).option
    (List.mem_cons_of_mem _ (List.mem_cons_self ..))

/-- A clause that names a graph asks for its name. -/
theorem graph_named_behind_use : ∃ candidates,
    candidatesOf ⟨3000, 3000⟩ (Stream.ofText "USE ".toList) = .ok candidates ∧
      ∃ candidate ∈ candidates.rules, candidate.rule = .symbolicAliasName := by
  have before : kindsBefore (Stream.ofText "USE ".toList) = [.keyword .USE] := by decide +kernel
  cases ran : candidatesOf ⟨3000, 3000⟩ (Stream.ofText "USE ".toList) with
  | error obstacle =>
    have exact := candidatesOf_exact ⟨3000, 3000⟩ "USE ".toList
    simp only [ran, before] at exact
    exact absurd exact.2 (by decide)
  | ok candidates =>
    have arrives : Reached (Stream.ofText "USE ".toList) .symbolicAliasName := by
      have here : 1 = (caretAtEnd (Stream.ofText "USE ".toList)).position := by decide +kernel
      have use : (caretAtEnd (Stream.ofText "USE ".toList)).before[0]? = some (.keyword .USE) := by
        decide +kernel
      have plain : ∀ frame ∈ namingGraph, frame.rule ∉ ({} : Config).preferred := by decide
      exact ⟨1, namingGraph, .inl ⟨here, fun frame member entered =>
        plain frame member (prefers_caretAmong.mp (Bool.and_eq_true_iff.mp entered).2), [],
        stands_graph_name use⟩⟩
    have plain : (kindsBefore (Stream.ofText "USE ".toList)).getLast? ≠ some (.symbol .dollar) := by
      simp only [before]
      decide
    exact ⟨candidates, rfl, (names_at_end "USE " candidates ran .symbolicAliasName).mpr
      ⟨by decide, arrives, fun _ sign => absurd sign plain⟩⟩

/-- A path on which a name is returned and then a graph named, by a parameter in brackets. -/
theorem stands_number (input : List Kind)
    (returned : [.keyword .RETURN, .keyword .DISTINCT] <+: input)
    (use : input[2]? = some (.keyword .USE)) (bracket : input[3]? = some (.symbol .leftParen))
    (sign : input[4]? = some (.symbol .dollar)) : ∃ outer follow,
      (∀ frame ∈ outer, frame.rule ∉ ({} : Config).preferred) ∧
      Stands cypher input Grammar.start (⟨.parameter, 4⟩ :: ⟨.symbolicAliasName, 4⟩ :: outer)
        (.token .integer) follow 5 := by
  have word : Word cypher (.reference .clause) [.keyword .RETURN, .keyword .DISTINCT] := by
    decide +kernel
  have clauses := stands_at [.reference .clause] (@stands_first_query input) rfl
    (.sequence (spans_of_word word (by simpa using returned)) .empty)
  have bracketed := ((stands_graph (clauses.repeated .done) use).enter rfl).option
    (List.mem_cons_self ..)
  have graph := stands_at [.token (.symbol .leftParen)] bracketed rfl
    (.sequence (.token bracket) .empty)
  have several := ((graph.enter rfl).option
    (List.mem_cons_of_mem _ (List.mem_cons_self ..))).enter rfl
  have parameter := several.option (List.mem_cons_of_mem _ (List.mem_cons_self ..))
  have value := stands_value parameter sign
  exact ⟨_, _, by decide, value.option (List.mem_cons_of_mem _ (List.mem_cons_self ..))⟩

/-- Where the clause that names a graph can also be read as a function of that name, the walk finds
the parameter in an expression first. -/
theorem graph_name_lost :
    Reached (Stream.ofText "RETURN DISTINCT USE ($ ".toList) .symbolicAliasName ∧ ∃ candidates,
      candidatesOf ⟨3000, 3000⟩ (Stream.ofText "RETURN DISTINCT USE ($ ".toList) = .ok candidates ∧
        ∀ candidate ∈ candidates.rules, candidate.rule ≠ .symbolicAliasName := by
  have before : kindsBefore (Stream.ofText "RETURN DISTINCT USE ($ ".toList) =
      [.keyword .RETURN, .keyword .DISTINCT, .keyword .USE, .symbol .leftParen,
        .symbol .dollar] := by decide +kernel
  constructor
  · generalize text : "RETURN DISTINCT USE ($ ".toList = chars at before ⊢
    rw [← before_caretAtEnd] at before
    have here : (caretAtEnd (Stream.ofText chars)).position = 5 := by
      rw [← Caret.length_before, before]
      rfl
    have plain : ∀ rule ∉ ({} : Config).preferred,
        ¬ (caretAtEnd (Stream.ofText chars)).prefers rule :=
      fun rule single preferred => single (prefers_caretAmong.mp preferred)
    obtain ⟨outer, follow, single, stands⟩ :=
      stands_number (caretAtEnd (Stream.ofText chars)).before (by simp [before]) (by simp [before])
        (by simp [before]) (by simp [before])
    refine ⟨4, outer, .inr ⟨[⟨.parameter, 4⟩], .integer, follow, ?_, ?_, here ▸ stands⟩⟩
    · exact List.forall_mem_singleton.mpr (plain _ (by decide))
    · refine List.forall_mem_cons.mpr ⟨by simp [here], fun frame member entered => ?_⟩
      exact plain _ (single frame member) (Bool.and_eq_true_iff.mp entered).2
  · have listed : (candidatesOf ⟨3000, 3000⟩
        (Stream.ofText "RETURN DISTINCT USE ($ ".toList)).map (·.rules.map (·.rule)) =
          .ok [.escapedSymbolicNameString, .unescapedSymbolicNameString] := by decide +kernel
    obtain ⟨candidates, ran, rules⟩ := exists_of_map_eq_ok listed
    refine ⟨candidates, ran, fun candidate member several => ?_⟩
    have found : candidate.rule ∈ candidates.rules.map (·.rule) :=
      List.mem_map.mpr ⟨candidate, member, rfl⟩
    rw [rules, several] at found
    exact absurd found (by decide)

end CypherAssist.Completion
