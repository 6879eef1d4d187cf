import CypherAssist.Proofs.Grammar.Within

/-! Every candidate is backed by a path. Whatever the grammar, left-recursive or not, a walk stands
only where some path over the tokens before the caret leads, with the rules open that the path has
entered; so each rule and each token that it reports is one that a path arrives at. -/
namespace CypherAssist.Grammar
open Token

/-- Some path from the first rule stands in front of an element, with these rules open, the
innermost first. Behind the element the innermost rule goes on with the elements that follow. -/
inductive Stands (grammar : Grammar) (input : List Kind) (first : Rule) :
    List Frame → Element → List Element → Nat → Prop where
  | start : Stands grammar input first [] (.reference first) [] 0
  | enter (outside : Stands grammar input first stack (.reference rule) follow position)
    (defined : grammar rule = some element) :
    Stands grammar input first (⟨rule, position⟩ :: stack) element [] position
  | part (outside : Stands grammar input first stack (.sequence (before ++ item :: rest)) follow
      origin) (passed : Spans grammar input (.sequence before) origin position) :
    Stands grammar input first stack item (rest ++ follow) position
  | option (outside : Stands grammar input first stack (.choice options) follow position)
    (member : option ∈ options) : Stands grammar input first stack option follow position
  | optional (outside : Stands grammar input first stack (.optional item) follow position) :
    Stands grammar input first stack item follow position
  | repeated (outside : Stands grammar input first stack (.repeated item) follow origin)
    (passed : Spans grammar input (.repeated item) origin position) :
    Stands grammar input first stack item (.repeated item :: follow) position

/-- No preferred rule is entered at the caret. -/
def Caret.Outside (caret : Caret) (stack : List Frame) : Prop :=
  ∀ frame ∈ stack, ¬ (frame.start = caret.position && caret.prefers frame.rule)

/-- A path arrives at the rule at the caret, or at a token there with the rule as the innermost
preferred one that is open. It enters no preferred rule at the caret. -/
def BacksRule (grammar : Grammar) (caret : Caret) (first rule : Rule) (position : Nat)
    (outer : List Frame) : Prop :=
  (position = caret.position ∧ caret.Outside outer ∧
    ∃ follow, Stands grammar caret.before first outer (.reference rule) follow position) ∨
  ∃ inner kind follow, caret.Clear inner ∧ caret.Outside (⟨rule, position⟩ :: outer) ∧
    Stands grammar caret.before first (inner ++ ⟨rule, position⟩ :: outer) (.token kind) follow
      caret.position

/-- Each candidate is what a path arrives at: a preferred rule, or a token that is not ignored, in
front of which no preferred rule is open. -/
structure Backed (grammar : Grammar) (caret : Caret) (first : Rule) (candidates : Candidates) :
    Prop where
  rules : ∀ candidate ∈ candidates.rules, caret.prefers candidate.rule ∧ ∃ position outer,
    candidate = caret.ruleAt candidate.rule position outer ∧
      BacksRule grammar caret first candidate.rule position outer
  tokens : ∀ candidate ∈ candidates.tokens, candidate.kind ∉ caret.ignored ∧ ∃ stack follow,
    caret.Clear stack ∧
      Stands grammar caret.before first stack (.token candidate.kind) follow caret.position ∧
      (candidate.followUp, candidate.isOptional) = followUp caret.ignored follow

/-- The records list ends of words only, and the candidates are backed. -/
structure Honest (grammar : Grammar) (caret : Caret) (first : Rule) (state : WalkState) : Prop where
  ends : ∀ rule position ends, state.recorded[(rule, position)]? = some ends →
    ∀ stop ∈ ends, Spans grammar caret.before (.reference rule) position stop
  backed : Backed grammar caret first state.candidates

variable {grammar : Grammar} {caret : Caret} {first : Rule} {stack : List Frame}
  {follow : List Element} {kind : Kind}

/-! ## Candidates -/

theorem backed_addRule {candidates : Candidates} {outer : List Frame}
    (backed : Backed grammar caret first candidates) (preferred : caret.prefers rule)
    (backs : BacksRule grammar caret first rule position outer) :
    Backed grammar caret first (candidates.addRule (caret.ruleAt rule position outer)) := by
  unfold Candidates.addRule
  split
  · exact backed
  · refine ⟨fun candidate member => ?_, backed.tokens⟩
    rcases List.mem_append.mp member with early | late
    · exact backed.rules candidate early
    · rw [List.mem_singleton.mp late]
      exact ⟨preferred, position, outer, rfl, backs⟩

theorem backed_addToken {candidates : Candidates} {candidate : TokenCandidate}
    (backed : Backed grammar caret first candidates) (wanted : candidate.kind ∉ caret.ignored)
    (clear : caret.Clear stack)
    (stands : Stands grammar caret.before first stack (.token candidate.kind) follow caret.position)
    (follows : (candidate.followUp, candidate.isOptional) = followUp caret.ignored follow) :
    Backed grammar caret first (candidates.addToken candidate) := by
  unfold Candidates.addToken
  split
  · exact backed
  · refine ⟨backed.rules, fun other member => ?_⟩
    rcases List.mem_append.mp member with early | late
    · exact backed.tokens other early
    · rw [List.mem_singleton.mp late]
      exact ⟨wanted, stack, follow, clear, stands, follows⟩

theorem backed_report {state : WalkState} (backed : Backed grammar caret first state.candidates)
    (outside : caret.Outside stack)
    (stands : Stands grammar caret.before first stack (.token kind) follow caret.position) :
    Backed grammar caret first (state.report caret kind stack follow).candidates := by
  unfold WalkState.report
  rcases clear_or_split caret stack with
    ⟨none, clear⟩ | ⟨inner, frame, outer, rfl, clear, preferred, split⟩
  · rw [none]
    simp only
    split
    · exact backed
    · rename_i wanted
      exact backed_addToken backed (by simpa using wanted) clear stands rfl
  · rw [split]
    have below := fun other member => outside other (List.mem_append_right inner member)
    exact backed_addRule backed preferred (.inr ⟨inner, kind, follow, clear, below, stands⟩)

@[simp] theorem WalkState.recorded_report (state : WalkState) (kind : Kind) (stack : List Frame)
    (follow : List Element) : (state.report caret kind stack follow).recorded = state.recorded := by
  unfold WalkState.report
  split
  · rfl
  · split <;> rfl

theorem honest_report {state : WalkState} (honest : Honest grammar caret first state)
    (outside : caret.Outside stack)
    (stands : Stands grammar caret.before first stack (.token kind) follow caret.position) :
    Honest grammar caret first (state.report caret kind stack follow) := by
  refine ⟨?_, backed_report honest.backed outside stands⟩
  rw [WalkState.recorded_report]
  exact honest.ends

/-- Run in an honest state, the action leaves one, and arrives at such places only. -/
abbrev Backs (grammar : Grammar) (caret : Caret) (first : Rule) (action : WalkM (List Nat))
    (arrives : Nat → Prop) : Prop :=
  Keeps (Honest grammar caret first) action arrives

/-! ## Elements -/

/-- A path that stands in front of an element goes on to each of its parts. -/
theorem stands_within {input : List Kind} {whole : Element} {behind : List Element} {origin : Nat}
    (stands : Stands grammar input first stack whole behind origin)
    (comes : Comes grammar input whole origin element follow position) :
    Stands grammar input first stack element (follow ++ behind) position := by
  induction comes with
  | whole => exact stands
  | part _ passed ih =>
    rw [List.append_assoc]
    exact .part ih passed
  | option _ member ih => exact .option ih member
  | optional _ ih => exact .optional ih
  | repeated _ passed ih => exact .repeated ih passed

/-! ## Rules -/

theorem honest_record {state : WalkState} (honest : Honest grammar caret first state)
    {ends : List Nat}
    (inside : ∀ stop ∈ ends, Spans grammar caret.before (.reference rule) position stop) :
    Honest grammar caret first (state.record rule position ends) := by
  refine ⟨fun other place known present => ?_, honest.backed⟩
  rw [WalkState.getElem?_record] at present
  split at present
  · rename_i same
    cases same
    cases present
    exact inside
  · exact honest.ends other place known present

/-- A rule walked where a path stands arrives at ends of its words, and reports what is backed. -/
theorem walkRule_backs (depth : Nat) (rule : Rule) (position : Nat) (stack : List Frame)
    (follow : List Element) (outside : caret.Outside stack)
    (stands : Stands grammar caret.before first stack (.reference rule) follow position) :
    Backs grammar caret first (walkRule grammar caret depth rule position stack)
      (Spans grammar caret.before (.reference rule) position) := by
  induction depth generalizing rule position stack follow with
  | zero => exact keeps_zero
  | succ depth ih =>
    refine keeps_rule (fun state honest here preferred => ?_)
      (fun state ends honest => honest.ends rule position ends)
      (fun state ends honest inside => honest_record honest inside) fun element enters defined => ?_
    · exact ⟨honest.ends,
        backed_addRule honest.backed preferred (.inl ⟨here, outside, follow, stands⟩)⟩
    · have deeper : caret.Outside (⟨rule, position⟩ :: stack) :=
        List.forall_mem_cons.mpr ⟨enters, outside⟩
      have here {part : Element} {others : List Element} {place : Nat}
          (comes : Comes grammar caret.before element position part others place) :
          Stands grammar caret.before first (⟨rule, position⟩ :: stack) part others place := by
        simpa using stands_within (.enter stands defined) comes
      have inside := walk_within
        (fun kind others state comes honest => honest_report honest deeper (here comes))
        (fun target place others comes => ih target place _ _ deeper (here comes))
        element position [] .whole
      exact keeps_mono inside fun stop spans => .reference defined spans

/-- Every candidate collected is backed by a path over the tokens before the caret. -/
theorem collect_backed {start : Rule} {stream : List Token} {index : Nat} {preferred : List Rule}
    {ignored : List Kind} {depth : Nat} {candidates : Candidates}
    (ran : collect grammar start stream index preferred ignored depth = .ok candidates) :
    Backed grammar ⟨(tokensUntil index stream).toArray, preferred, ignored⟩ start candidates := by
  obtain ⟨-, rfl⟩ | ⟨ends, state, walked, rfl⟩ := walk_of_collect ran
  · exact ⟨List.forall_mem_nil _, List.forall_mem_nil _⟩
  have begun : Honest grammar ⟨(tokensUntil index stream).toArray, preferred, ignored⟩ start {} :=
    { ends := fun _ _ _ present => by simp at present
      backed := ⟨List.forall_mem_nil _, List.forall_mem_nil _⟩ }
  obtain ⟨honest, -⟩ :=
    walkRule_backs depth start 0 [] [] (List.forall_mem_nil _) .start {} _ _ begun walked
  exact honest.backed

end CypherAssist.Grammar
