import CypherAssist.Proofs.Grammar.Backing

/-! Preferred rules at the caret. A walk goes into a rule once at each position, whatever is open
around it, so a rule that is open over several tokens may be hidden where another visit came first.
No other preferred rule is: where a token at the caret can only stand in the right-hand side of the
rule itself, every path that asks for it reports the rule. -/
namespace CypherAssist.Grammar
open Token

variable {grammar : Grammar} {caret : Caret} {first found rule : Rule} {stack outer : List Frame}
  {follow : List Element}

/-- Behind the beginning of a sequence, what is told is told by the sequence. -/
theorem tells_append {before : List Element} {origin : Nat}
    (passed : Spans grammar caret.before (.sequence before) origin position)
    (told : Tells grammar caret found holder (.sequence items) position) :
    Tells grammar caret found holder (.sequence (before ++ items)) origin := by
  induction before generalizing origin with
  | nil =>
    cases passed
    exact told
  | cons part rest ih =>
    cases passed with
    | sequence head tail => exact .tail head (ih tail)

/-- What is told where a path stands, is told from the start. -/
theorem tells_of_stands (outside : caret.Outside stack)
    (stands : Stands grammar caret.before first stack element follow position)
    (told : Tells grammar caret found (holder? stack) element position) :
    Tells grammar caret found none (.reference first) 0 := by
  induction stands with
  | start => exact told
  | enter _ defined ih =>
    obtain ⟨enters, below⟩ := List.forall_mem_cons.mp outside
    exact ih below (.enters enters defined told)
  | part _ passed ih => exact ih outside (tells_append passed (.head told))
  | option _ member ih => exact ih outside (.choice member told)
  | optional _ ih => exact ih outside (.optional told)
  | repeated _ passed ih => exact ih outside (.repeated passed told)

theorem meets_append {admitted : Rule → Prop} {input : List Kind} {before : List Element}
    {origin : Nat} (passed : Spans grammar input (.sequence before) origin position)
    (meets : Meets grammar admitted input (.sequence items) position target asked) :
    Meets grammar admitted input (.sequence (before ++ items)) origin target asked := by
  induction before generalizing origin with
  | nil =>
    cases passed
    exact meets
  | cons part rest ih =>
    cases passed with
    | sequence head tail => exact .tail head (ih tail)

/-- A path inside a rule came through its right-hand side. -/
theorem exists_body_of_stands {admitted : Rule → Prop} {input : List Kind} {inner : List Frame}
    {frame : Frame} (stands : Stands grammar input first stack element follow position)
    (split : stack = inner ++ frame :: outer) (clear : ∀ frame ∈ inner, admitted frame.rule)
    (meets : Meets grammar admitted input element position target asked) :
    ∃ body, grammar frame.rule = some body ∧
      Stands grammar input first (frame :: outer) body [] frame.start ∧
      Meets grammar admitted input body frame.start target asked := by
  induction stands generalizing inner with
  | start => simp at split
  | @enter _ rule _ _ _ outside defined ih =>
    cases inner with
    | nil =>
      cases split
      exact ⟨_, defined, .enter outside defined, meets⟩
    | cons top inner =>
      cases split
      obtain ⟨admits, below⟩ := List.forall_mem_cons.mp clear
      exact ih rfl below (.reference admits defined meets)
  | part _ passed ih => exact ih split clear (meets_append passed (.head meets))
  | option _ member ih => exact ih split clear (.choice member meets)
  | optional _ ih => exact ih split clear (.optional meets)
  | repeated _ passed ih => exact ih split clear (meets_repeated_iff.mpr ⟨_, passed, meets⟩)

/-- A token at the caret that stands in the rule, with no preferred rule open between them, can only
be one of its right-hand side itself. -/
def Outspoken (grammar : Grammar) (caret : Caret) (rule : Rule) : Prop :=
  ∀ element position asked, grammar rule = some element → position < caret.position →
    Meets grammar caret.Admits caret.before element position caret.position asked →
      Tells grammar caret rule (some rule) element position

/-- Wherever a path arrives at an outspoken rule, the rule is told. -/
theorem tells_of_backsRule (preferred : caret.prefers rule)
    (outspoken : Outspoken grammar caret rule)
    (backs : BacksRule grammar caret first rule position outer) :
    Tells grammar caret rule none (.reference first) 0 := by
  rcases backs with ⟨rfl, outside, follow, stands⟩ | ⟨inner, kind, follow, clear, outside, stands⟩
  · exact tells_of_stands outside stands (.arrives preferred)
  · obtain ⟨body, defined, entered, meets⟩ :=
      exists_body_of_stands stands rfl clear .token
    have earlier : position < caret.position := by
      obtain ⟨seen, -, -, place⟩ := awaits_of_meets meets
      have elsewhere := outside ⟨rule, position⟩ (by simp)
      simp only [preferred, Bool.and_true, decide_eq_true_eq] at elsewhere place
      omega
    exact tells_of_stands outside entered (outspoken body position kind defined earlier meets)

/-- A path to a token at the caret tells a preferred rule or goes through none. Inside a preferred
rule such a token must not be asked for but in further preferred ones. -/
theorem tells_or_meets {kind : Kind} {target : Nat}
    (quiet : ∀ rule body position, caret.prefers rule → grammar rule = some body →
      position < caret.position →
      ¬ Meets grammar caret.Admits caret.before body position caret.position kind)
    (meets : Meets grammar anyRule caret.before element position target kind)
    (here : target = caret.position) (holder : Option Rule) :
    (∃ found, Tells grammar caret found holder element position) ∨
      Meets grammar caret.Admits caret.before element position target kind := by
  induction meets generalizing holder with
  | token => exact .inr .token
  | @reference rule body origin target kind _ defined inside ih =>
    obtain ⟨seen, -, -, place⟩ := awaits_of_meets inside
    by_cases reports : origin = caret.position && caret.prefers rule
    · obtain ⟨rfl, preferred⟩ := by simpa using reports
      exact .inl ⟨rule, .arrives preferred⟩
    · rcases ih quiet here (some rule) with ⟨found, told⟩ | meets
      · exact .inl ⟨found, .enters reports defined told⟩
      · by_cases preferred : caret.prefers rule
        · simp only [preferred, Bool.and_true, decide_eq_true_eq] at reports place
          have earlier : origin < caret.position := by omega
          exact absurd (here ▸ meets) (quiet rule body origin preferred defined earlier)
        · exact .inr (.reference preferred defined meets)
  | head _ ih =>
    exact (ih quiet here holder).imp (fun ⟨found, told⟩ => ⟨found, .head told⟩) .head
  | tail passed _ ih =>
    exact (ih quiet here holder).imp (fun ⟨found, told⟩ => ⟨found, .tail passed told⟩)
      (.tail passed)
  | choice member _ ih =>
    exact (ih quiet here holder).imp (fun ⟨found, told⟩ => ⟨found, .choice member told⟩)
      (.choice member)
  | optional _ ih =>
    exact (ih quiet here holder).imp (fun ⟨found, told⟩ => ⟨found, .optional told⟩) .optional
  | first _ ih =>
    exact (ih quiet here holder).imp (fun ⟨found, told⟩ => ⟨found, .repeated .done told⟩) .first
  | later passed _ ih =>
    refine (ih quiet here holder).imp (fun ⟨found, told⟩ => ⟨found, ?_⟩) (.later passed)
    cases told with
    | repeated further inside => exact .repeated (.again passed further) inside

/-- The candidates are preferred rules that a path arrives at, and all of those that are outspoken
are among them. -/
theorem collect_rules (free : LeftRecursionFree grammar) {start : Rule} {stream : List Token}
    {index : Nat} {preferred : List Rule} {ignored : List Kind} {depth : Nat}
    {candidates : Candidates} (visible : tokensUntil index stream ≠ [])
    (discreet : Discreet grammar ⟨(tokensUntil index stream).toArray, preferred, ignored⟩)
    (ran : collect grammar start stream index preferred ignored depth = .ok candidates)
    (rule : Rule) :
    ((∃ candidate ∈ candidates.rules, candidate.rule = rule) → rule ∈ preferred ∧
      ∃ position outer, BacksRule grammar ⟨(tokensUntil index stream).toArray, preferred, ignored⟩
        start rule position outer) ∧
    (rule ∈ preferred →
      Outspoken grammar ⟨(tokensUntil index stream).toArray, preferred, ignored⟩ rule →
      (∃ position outer, BacksRule grammar
        ⟨(tokensUntil index stream).toArray, preferred, ignored⟩ start rule position outer) →
      ∃ candidate ∈ candidates.rules, candidate.rule = rule) := by
  constructor
  · rintro ⟨candidate, member, rfl⟩
    obtain ⟨prefers, position, outer, -, backs⟩ := (collect_backed ran).rules candidate member
    exact ⟨by simpa [Caret.prefers] using prefers, position, outer, backs⟩
  · rintro prefers outspoken ⟨position, outer, backs⟩
    exact collect_tells free visible discreet ran
      (tells_of_backsRule (by simpa [Caret.prefers] using prefers) outspoken backs)

end CypherAssist.Grammar
