import CypherAssist.Proofs.Grammar.Enclosing
import CypherAssist.Token.Stream

/-! The path behind a rule candidate. The rules around a reported rule were entered one from the
other, each at a place that the parts before it in the right-hand side lead to; from there to the
caret, what is reported reads all tokens on its own and still asks for more. -/
namespace CypherAssist.Grammar
open Token

/-- Rules entered one inside the other from the beginning of the text, the innermost first: the part
of each right-hand side in front of the next rule ends where that rule starts. -/
inductive Opened (grammar : Grammar) (input : List Kind) (first : Rule) :
    List Frame → Rule → Nat → Prop where
  | start : Opened grammar input first [] first 0
  | inside (outer : Opened grammar input first stack rule origin)
    (defined : grammar rule = some body)
    (comes : Comes grammar input body origin (.reference target) follow position) :
    Opened grammar input first (⟨rule, origin⟩ :: stack) target position

variable {grammar : Grammar} {input : List Kind} {first rule : Rule} {stack : List Frame}
  {follow : List Element} {whole : Element} {origin : Nat}

/-! ## The rules around -/

/-- The rules open on a path were entered one inside the other. -/
theorem opened_of_stands
    (stands : Stands grammar input first stack (.reference rule) follow position) :
    Opened grammar input first stack rule position := by
  induction stack generalizing rule follow position with
  | nil =>
    cases inside_of_stands stands
    exact .start
  | cons top below ih =>
    cases inside_of_stands stands with
    | within defined entered comes => exact .inside (ih entered) defined comes

/-- The rules around start with the first one, and each refers to the next. -/
theorem isChain_of_opened (opened : Opened grammar input first stack rule position) :
    (stack.reverse.map (·.rule) ++ [rule]).head? = some first ∧
      (stack.reverse.map (·.rule) ++ [rule]).IsChain (Mentions grammar) := by
  induction opened with
  | start => exact ⟨rfl, List.isChain_singleton _⟩
  | @inside stack rule origin body target follow position outer defined comes ih =>
    have mentions : Mentions grammar rule target :=
      ⟨body, defined, references_of_comes comes (List.mem_singleton_self target)⟩
    rw [List.reverse_cons, List.map_append, List.map_singleton]
    refine ⟨by rw [List.head?_append, ih.1, Option.some_or], List.isChain_append.mpr
      ⟨ih.2, List.isChain_singleton _, ?_⟩⟩
    simpa using mentions

/-! ## Candidates -/

/-- The path that a candidate stands for, over the visible tokens up to the one under the caret. The
candidate is a preferred rule, entered through the rules that enclose it at the token where it
starts. It is due at the caret itself, or what it has read from its start to the caret asks for one
more token there while no other preferred rule is open in it. -/
structure Traced (grammar : Grammar) (first : Rule) (preferred : List Rule) (tokens : List Token)
    (candidate : RuleCandidate) (stack : List Frame) (position : Nat) : Prop where
  prefers : candidate.rule ∈ preferred
  enclosing : candidate.enclosing = stack.reverse.map (·.rule)
  begins : (candidate.enclosing ++ [candidate.rule]).head? = some first
  mentions : (candidate.enclosing ++ [candidate.rule]).IsChain (Mentions grammar)
  starts : tokens = [] ∨ ∃ token, tokens[position]? = some token ∧ candidate.start = token.index
  opened : Opened grammar (tokens.dropLast.map (·.kind)) first stack candidate.rule position
  wants : position = tokens.length - 1 ∨ ∃ body kind, grammar candidate.rule = some body ∧
    Meets grammar (· ∉ preferred) (tokens.dropLast.map (·.kind)) body position (tokens.length - 1)
      kind

/-- No rule is reported twice. -/
theorem stable_rules (caret : Caret) :
    Stable caret fun state => (state.candidates.rules.map (·.rule)).Nodup := by
  have added (candidates : Candidates) (candidate : RuleCandidate)
      (unique : (candidates.rules.map (·.rule)).Nodup) :
      ((candidates.addRule candidate).rules.map (·.rule)).Nodup := by
    unfold Candidates.addRule
    split
    · exact unique
    · rename_i new
      rw [List.map_append, List.map_singleton, List.nodup_append]
      refine ⟨unique, List.nodup_singleton _, ?_⟩
      simpa using new
  refine ⟨fun state kind stack follow unique => ?_, fun state candidate => added _ _,
    fun _ _ _ _ unique => unique⟩
  unfold WalkState.report
  split
  · exact added _ _ unique
  · split
    · exact unique
    · simp only [Candidates.addToken]
      split <;> exact unique

variable {start : Rule} {stream : List Token} {index depth : Nat} {preferred : List Rule}
  {ignored : List Kind} {candidates : Candidates}

/-- What backs a candidate is a path that it stands for. -/
theorem traced_of_backs {tokens : List Token} {candidate : RuleCandidate} {position : Nat}
    {outer : List Frame} (prefers : candidate.rule ∈ preferred)
    (same : candidate = Caret.ruleAt ⟨tokens.toArray, preferred, ignored⟩ candidate.rule position
      outer)
    (backs : BacksRule grammar ⟨tokens.toArray, preferred, ignored⟩ first candidate.rule position
      outer) :
    Traced grammar first preferred tokens candidate outer position := by
  have before : Caret.before ⟨tokens.toArray, preferred, ignored⟩ =
      tokens.dropLast.map (·.kind) := by simp [Caret.before_eq]
  have admits : Caret.Admits ⟨tokens.toArray, preferred, ignored⟩ = (· ∉ preferred) := by
    funext rule
    simp [Caret.Admits, Caret.prefers]
  have last : Caret.position ⟨tokens.toArray, preferred, ignored⟩ = tokens.length - 1 := by
    simp [Caret.position]
  rw [BacksRule, before, last] at backs
  obtain ⟨opened, wants⟩ : Opened grammar (tokens.dropLast.map (·.kind)) first outer candidate.rule
        position ∧
      (position = tokens.length - 1 ∨ ∃ body kind, grammar candidate.rule = some body ∧
        Meets grammar (· ∉ preferred) (tokens.dropLast.map (·.kind)) body position
          (tokens.length - 1) kind) := by
    rcases backs with ⟨here, -, follow, stands⟩ | ⟨inner, kind, follow, clear, -, stands⟩
    · exact ⟨opened_of_stands stands, .inl here⟩
    · obtain ⟨body, defined, entered, meets⟩ := exists_body_of_stands stands rfl clear .token
      rw [admits] at meets
      cases inside_of_stands entered with
      | within _ entered _ =>
        exact ⟨opened_of_stands entered, .inr ⟨body, kind, defined, meets⟩⟩
  have within : position ≤ tokens.length - 1 := by
    rcases wants with here | ⟨body, kind, -, meets⟩
    · exact Nat.le_of_eq here
    · obtain ⟨seen, -, -, there⟩ := awaits_of_meets meets
      omega
  have enclosing : candidate.enclosing = outer.reverse.map (·.rule) := congrArg (·.enclosing) same
  obtain ⟨begins, mentions⟩ := isChain_of_opened opened
  refine ⟨prefers, enclosing, enclosing ▸ begins, enclosing ▸ mentions, ?_, opened, wants⟩
  rcases List.eq_nil_or_concat tokens with rfl | ⟨front, token, rfl⟩
  · exact .inl rfl
  · obtain ⟨found, present⟩ : ∃ found, (front.concat token)[position]? = some found := by
      refine ⟨_, List.getElem?_eq_getElem ?_⟩
      simp only [List.length_concat] at within ⊢
      omega
    have start := congrArg (·.start) same
    simp only [Caret.ruleAt, List.getElem?_toArray, present, Option.map_some,
      Option.getD_some] at start
    exact .inr ⟨found, present, start⟩

/-- Whatever the grammar and the text, a rule candidate stands for a path that leads to the caret,
and no rule is a candidate twice. -/
theorem rule_candidates_traced
    (ran : collect grammar start stream index preferred ignored depth = .ok candidates) :
    (candidates.rules.map (·.rule)).Nodup ∧
      ∀ candidate ∈ candidates.rules, ∃ stack position,
        Traced grammar start preferred (tokensUntil index stream) candidate stack position := by
  constructor
  · obtain ⟨-, rfl⟩ | ⟨ends, state, walked, rfl⟩ := walk_of_collect ran
    · exact List.nodup_nil
    exact (walkRule_preserves (stable_rules _) depth start 0 [] {} _ _ List.nodup_nil walked).1
  · intro candidate member
    obtain ⟨prefers, position, outer, same, backs⟩ := (collect_backed ran).rules candidate member
    exact ⟨outer, position, traced_of_backs (by simpa [Caret.prefers] using prefers) same backs⟩

/-- Statements in a list with the recursion on the left; each returns a name of one or two parts. -/
def leftListed : Grammar
  | .statements => some (.choice [.sequence [Rule.statements, Symbol.semicolon, Rule.statement],
      Rule.statement])
  | .statement => some (.sequence [Keyword.RETURN, Rule.variableName])
  | .variableName => some (.sequence [Kind.plainName, .opt [Symbol.dot, Kind.plainName]])
  | _ => none

/-- Behind a name that may go on, the name is still open, and it was entered behind the keyword. -/
theorem open_name_traced :
    ∃ candidates, collect leftListed .statements (Token.Stream.ofText "RETURN x ".toList).toList 4
        [.variableName] [] 4 = .ok candidates ∧
      ⟨.variableName, 2, [.statements, .statement]⟩ ∈ candidates.rules ∧
      ∃ stack position, Traced leftListed .statements [.variableName]
        (tokensUntil 4 (Token.Stream.ofText "RETURN x ".toList).toList)
        ⟨.variableName, 2, [.statements, .statement]⟩ stack position := by
  obtain ⟨candidates, ran, member⟩ : ∃ candidates, collect leftListed .statements
      (Token.Stream.ofText "RETURN x ".toList).toList 4 [.variableName] [] 4 = .ok candidates ∧
      ⟨.variableName, 2, [.statements, .statement]⟩ ∈ candidates.rules := by
    have visible : tokensUntil 4 (Token.Stream.ofText "RETURN x ".toList).toList =
        [⟨.keyword .RETURN, "RETURN".toList, ⟨0, 1, 0⟩, 0⟩, ⟨.plainName, "x".toList, ⟨7, 1, 7⟩, 2⟩,
          ⟨.endOfFile, [], ⟨9, 1, 9⟩, 4⟩] := by decide +kernel
    have stays (places : List Nat) (state : WalkState) :
        (pure places : WalkM (List Nat)) state = .ok (places, state) := rfl
    have gives {α : Type} (value : α) : (pure value : Except Obstacle α) = .ok value := rfl
    rw [collect_of_visible (visible ▸ List.cons_ne_nil _ _), visible]
    simp [walkRule_apply, leftListed, Caret.position, Caret.prefers, Element.walk,
      Element.walkInOrder, Element.walkAny, Element.opt, Element.seq, StateT.bind, bind,
      Except.bind, stays, gives, Except.map, union, modify, modifyGet, MonadStateOf.modifyGet,
      StateT.modifyGet, WalkState.record, WalkState.report, Candidates.addRule, Caret.ruleAt]
  exact ⟨candidates, ran, member, (rule_candidates_traced ran).2 _ member⟩

end CypherAssist.Grammar
