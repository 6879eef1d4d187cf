import CypherAssist.Proofs.Grammar.Enclosing

/-! Tokens found elsewhere first. Of several reports of a token the first one stays. Where a rule
that begins with a token stands only behind a rule that asks for the same token wherever it ends,
the report of the rule in front comes first, so the rule behind it adds nothing to what is known of
the token. -/
namespace CypherAssist.Grammar
open Token Relation

variable {grammar : Grammar} {caret : Caret} {stack : List Frame} {input : List Kind}
  {whole : Element} {origin place : Nat} {kind : Kind}

/-! ## Parts of one right-hand side -/

/-- What a part asks for, the whole does. -/
theorem meets_of_comes {admitted : Rule → Prop}
    (comes : Comes grammar input whole origin element follow position)
    (meets : Meets grammar admitted input element position place asked) :
    Meets grammar admitted input whole origin place asked := by
  induction comes with
  | whole => exact meets
  | part _ passed ih => exact ih (meets_append passed (.head meets))
  | option _ member ih => exact ih (.choice member meets)
  | optional _ ih => exact ih (.optional meets)
  | repeated _ passed ih => exact ih (meets_repeated_iff.mpr ⟨_, passed, meets⟩)

theorem calls_append {before items : List Element}
    (passed : Spans grammar input (.sequence before) origin position)
    (called : Calls grammar input.length (.sequence items) position target place) :
    Calls grammar input.length (.sequence (before ++ items)) origin target place := by
  induction before generalizing origin with
  | nil =>
    cases passed
    exact called
  | cons part rest ih =>
    cases passed with
    | sequence head tail => exact calls_tail head (ih tail)

/-- The rules that a part enters, the whole does. -/
theorem calls_of_comes (comes : Comes grammar input whole origin element follow position)
    (called : Calls grammar input.length element position target place) :
    Calls grammar input.length whole origin target place := by
  induction comes with
  | whole => exact called
  | part _ passed ih => exact ih (calls_append passed (calls_head called))
  | option _ member ih => exact ih (calls_choice member called)
  | optional _ ih => exact ih (calls_optional called)
  | repeated _ passed ih => exact ih (calls_repeated passed called)

theorem place_le_of_comes (comes : Comes grammar input whole origin element follow place)
    (inside : origin ≤ input.length) : place ≤ input.length := by
  induction comes with
  | whole => exact inside
  | part _ passed ih | repeated _ passed ih =>
    have moved := spans_le passed
    omega
  | option _ _ ih | optional _ ih => exact ih

/-- A path through two parts comes to the first one, and to the second where the first one ends. -/
theorem comes_pair {one two : Element} :
    Comes grammar input (.sequence [one, two]) origin one [two] origin ∧
      ∀ stop, Spans grammar input one origin stop →
        Comes grammar input (.sequence [one, two]) origin two [] stop := by
  constructor
  · show Comes grammar input (.sequence ([] ++ one :: [two])) origin one ([two] ++ []) origin
    exact .part .whole .empty
  · intro stop spans
    show Comes grammar input (.sequence ([one] ++ two :: [])) origin two ([] ++ []) stop
    exact .part .whole (.sequence spans .empty)

/-- What fits the whole fits its parts. -/
theorem fits_of_comes (fits : Fits grammar caret stack whole origin)
    (comes : Comes grammar caret.before whole origin element follow place) :
    Fits grammar caret stack element place :=
  fits_mono fits fun _ asked => ⟨asked.1, meets_of_comes comes asked.2⟩

/-! ## Bare tokens -/

/-- Nothing that comes straight behind the token is known. -/
def TokenCandidate.Bare (candidate : TokenCandidate) : Prop :=
  candidate.followUp = [] ∧ candidate.isOptional = false

/-- A token of this kind is reported as a bare one. -/
def WalkState.Bare (kind : Kind) (state : WalkState) : Prop :=
  ∀ candidate ∈ state.candidates.tokens, candidate.kind = kind → candidate.Bare

theorem bare_addRule {state : WalkState} (bare : state.Bare kind) (candidate : RuleCandidate) :
    WalkState.Bare kind { state with candidates := state.candidates.addRule candidate } := by
  unfold WalkState.Bare Candidates.addRule
  split <;> exact bare

/-- A report leaves a token bare if it is one already, or if it is reported as one. -/
theorem bare_report {state : WalkState} (bare : state.Bare kind)
    (known : asked = kind → kind ∈ state.reported ∨ followUp caret.ignored follow = ([], false)) :
    (state.report caret asked stack follow).Bare kind := by
  unfold WalkState.report
  split
  · exact bare_addRule bare _
  · split
    · exact bare
    · simp only [Candidates.addToken]
      split
      · exact bare
      · rename_i fresh
        intro candidate member same
        rcases List.mem_append.mp member with early | late
        · exact bare candidate early same
        · rw [List.mem_singleton.mp late] at same ⊢
          rcases known same with ⟨other, found, also⟩ | nothing
          · have again : other.kind = asked := also.trans same.symm
            exact absurd (List.any_eq_true.mpr ⟨other, found, by simpa using again⟩) fresh
          · exact ⟨congrArg Prod.fst nothing, congrArg Prod.snd nothing⟩

/-- The rule `late` begins with the kind, and stands behind the rule `early` in the rule `around`
only. Wherever `early` ends at the caret it asks for the kind there. In all other rules the kind is
bare. -/
structure Forestalled (grammar : Grammar) (caret : Caret) (kind : Kind) (early late around : Rule) :
    Prop where
  apart : early ≠ late
  body : grammar around = some (.sequence [.reference early, .optional (.reference late)])
  only : ∀ rule element, grammar rule = some element → late ∈ element.references → rule = around
  asked : ∀ origin, Spans grammar caret.before (.reference early) origin caret.position →
    kind ∈ asks grammar caret (.reference early) origin
  begins : ∀ element origin follow place, grammar late = some element →
    Comes grammar caret.before element origin (.token kind) follow place → place = origin
  bare : ∀ rule element origin follow place, rule ≠ late → grammar rule = some element →
    Comes grammar caret.before element origin (.token kind) follow place →
      followUp caret.ignored follow = ([], false)

/-! ## Walks -/

variable {descend : Rule → Nat → List Frame → WalkM (List Nat)} {holds between : WalkState → Prop}
  {arrives onward : Nat → Prop} {opened : Set (Rule × Nat)} {early late around : Rule}

/-- Two parts one after the other; what holds between them depends on the first. -/
private theorem keeps_pair {first second : Element}
    (one : ∀ state reached after, holds state →
      first.walk caret descend origin stack [second] state = .ok (reached, after) →
        between after ∧ ∀ stop ∈ reached, arrives stop)
    (two : ∀ stop, arrives stop → Keeps between (second.walk caret descend stop stack []) onward)
    (weaker : ∀ state, between state → holds state) :
    Keeps holds ((Element.sequence [first, second]).walk caret descend origin stack []) onward := by
  intro state reached after kept ran
  simp only [Element.walk, Element.walkInOrder, List.foldlM_cons, List.foldlM_nil, bind_pure,
    List.append_nil] at ran
  obtain ⟨_, middle, passed, ran⟩ := exists_of_bind_eq_ok ran
  obtain ⟨front, _, passed, same⟩ := exists_of_bind_eq_ok passed
  cases same
  obtain ⟨here, inside⟩ := one state front middle kept passed
  have behind := keeps_each front (fun stop member => two stop (inside stop member))
    (List.forall_mem_nil _) middle reached after here ran
  exact behind.imp_left (weaker after)

/-- Records are settled and the token is bare. -/
private abbrev Calm (grammar : Grammar) (caret : Caret) (kind : Kind) (opened : Set (Rule × Nat))
    (state : WalkState) : Prop :=
  Settled grammar caret opened state ∧ state.Bare kind

/-- A rule entered leaves the token bare, arrives at its ends and reports what it asks for. The rule
`late` is entered at the caret only when the token has been reported. -/
private def Spares (grammar : Grammar) (caret : Caret) (kind : Kind) (late : Rule)
    (opened : Set (Rule × Nat)) (descend : Rule → Nat → List Frame → WalkM (List Nat))
    (stack : List Frame) (target : Rule) (place : Nat) : Prop :=
  ∀ state reached after, Calm grammar caret kind opened state →
    (target = late → place = caret.position → kind ∈ state.reported) →
    descend target place stack state = .ok (reached, after) →
      (Calm grammar caret kind opened after ∧
        after.reported = state.reported ∪ asks grammar caret (.reference target) place) ∧
      ∀ stop ∈ reached, Spans grammar caret.before (.reference target) place stop

/-- The rule `late` is entered once the rule in front of it has been walked, which has reported the
token if it ends at the caret. -/
private theorem around_keeps (forestalled : Forestalled grammar caret kind early late around)
    (spares : ∀ target place follow, Comes grammar caret.before
      (.sequence [.reference early, .optional (.reference late)]) origin (.reference target) follow
        place → Spares grammar caret kind late opened descend stack target place) :
    Keeps (Calm grammar caret kind opened)
      ((Element.sequence [.reference early, .optional (.reference late)]).walk caret descend origin
        stack []) fun _ => True := by
  obtain ⟨front, behind⟩ := @comes_pair grammar caret.before origin (.reference early)
    (.optional (.reference late))
  have one (state found after) (calm : Calm grammar caret kind opened state)
      (walked : descend early origin stack state = .ok (found, after)) :
      (Calm grammar caret kind opened after ∧
        asks grammar caret (.reference early) origin ⊆ after.reported) ∧
        ∀ stop ∈ found, Spans grammar caret.before (.reference early) origin stop := by
    obtain ⟨⟨calm, reported⟩, inside⟩ := spares early origin _ front state found after calm
      (fun same => absurd same forestalled.apart) walked
    exact ⟨⟨calm, reported ▸ Set.subset_union_right⟩, inside⟩
  refine keeps_pair one (fun stop spans => ?_) fun _ => And.left
  rw [Element.walk]
  refine keeps_union ?_ fun _ _ => trivial
  rintro state found after ⟨calm, known⟩ walked
  have ready (_ : late = late) (here : stop = caret.position) : kind ∈ state.reported :=
    known (forestalled.asked origin (here ▸ spans))
  obtain ⟨⟨calm, reported⟩, -⟩ := spares late stop _ (.optional (behind stop spans)) state found
    after calm ready walked
  exact ⟨⟨calm, known.trans (reported ▸ Set.subset_union_left)⟩, fun _ _ => trivial⟩

/-- In all other rules the token is bare, or it begins the rule `late`. -/
private theorem others_keep (forestalled : Forestalled grammar caret kind early late around)
    (defined : grammar rule = some body) (other : rule ≠ around)
    (fits : Fits grammar caret stack body origin)
    (spares : ∀ target place follow, Comes grammar caret.before body origin (.reference target)
      follow place → Spares grammar caret kind late opened descend stack target place) :
    Keeps (fun state => Calm grammar caret kind opened state ∧
        (rule = late → origin = caret.position → kind ∈ state.reported))
      (body.walk caret descend origin stack []) (Spans grammar caret.before body origin) := by
  refine walk_within ?_ ?_ body origin [] .whole
  · rintro asked follow state comes ⟨⟨settled, bare⟩, ready⟩
    have reported := reported_report state follow (fits_of_comes fits comes)
    have grows : state.reported ⊆ (state.report caret asked stack follow).reported :=
      reported ▸ Set.subset_union_left
    have gains := Set.subset_union_left.trans (@told_report grammar caret stack asked state follow)
    refine ⟨⟨settled_mono settled (WalkState.recorded_report ..) grows gains,
      bare_report bare ?_⟩, fun same here => grows (ready same here)⟩
    rintro rfl
    by_cases same : rule = late
    · subst same
      exact .inl (ready rfl (forestalled.begins body origin _ _ defined comes).symm)
    · exact .inr (forestalled.bare rule body origin _ _ same defined comes)
  · rintro target place follow comes state found after ⟨calm, ready⟩ walked
    have apart : target ≠ late := by
      rintro rfl
      have mentioned := references_of_comes comes (List.mem_singleton_self _)
      exact other (forestalled.only rule body defined mentioned)
    obtain ⟨⟨calm, reported⟩, inside⟩ := spares target place _ comes state found after calm
      (fun same => absurd same apart) walked
    exact ⟨⟨calm, fun same here => reported ▸ .inl (ready same here)⟩, inside⟩

/-- A walk leaves the token bare, if it enters the rule `late` at the caret only when the token has
been reported. -/
theorem walkRule_bare (free : LeftRecursionFree grammar) (discreet : Discreet grammar caret)
    (forestalled : Forestalled grammar caret kind early late around) (depth : Nat) (rule : Rule)
    (position : Nat) (stack : List Frame) (opened : Set (Rule × Nat))
    (inside : position ≤ caret.position)
    (fits : Fits grammar caret stack (.reference rule) position)
    (above : ∀ other ∈ opened, burden grammar caret.before.length rule position <
      burden grammar caret.before.length other.1 other.2)
    {state after : WalkState} {reached : List Nat} (settled : Settled grammar caret opened state)
    (bare : state.Bare kind)
    (ready : rule = late → position = caret.position → kind ∈ state.reported)
    (ran : walkRule grammar caret depth rule position stack state = .ok (reached, after)) :
    after.Bare kind := by
  induction depth generalizing rule position stack opened state after reached with
  | zero => cases ran
  | succ depth ih =>
    rw [walkRule_apply] at ran
    split at ran
    · cases ran
      exact bare_addRule bare _
    rename_i enters
    split at ran
    · cases ran
      exact bare
    split at ran
    · cases ran
    rename_i body defined
    obtain ⟨⟨ends, closed⟩, passed, same⟩ := exists_of_map_eq_ok ran
    cases same
    have fitting := fits_body discreet defined fits inside enters
    have spares (target place follow)
        (comes : Comes grammar caret.before body position (.reference target) follow place) :
        Spares grammar caret kind late (insert (rule, position) opened)
          (walkRule grammar caret depth) (⟨rule, position⟩ :: stack) target place := by
      rintro state reached after ⟨settled, bare⟩ ready ran
      have near : place ≤ caret.position := by
        rw [← caret.length_before] at inside ⊢
        exact place_le_of_comes comes inside
      have higher :=
        burden_lt_opened free defined (calls_of_comes comes calls_reference) above
      have fits := fits_of_comes fitting comes
      have walks := walkRule_walks free discreet depth target place _ _ near fits higher state
        settled
      simp only [ran] at walks
      obtain ⟨lists, kept, reported, -⟩ := walks
      exact ⟨⟨⟨kept, ih target place _ _ near fits higher settled bare ready ran⟩, reported⟩,
        fun stop member => (lists.mem_iff stop).mp member⟩
    have begun : Calm grammar caret kind (insert (rule, position) opened)
        (state.record rule position []) := ⟨settled_open settled rule position [], bare⟩
    suffices closed.Bare kind from this
    by_cases same : rule = around
    · subst same
      cases defined.symm.trans forestalled.body
      exact (around_keeps forestalled spares _ _ _ begun passed).1.2
    · exact (others_keep forestalled defined same fitting spares _ _ _ ⟨begun, ready⟩ passed).1.1.2

/-- The candidates list the token as a bare one. -/
theorem collect_bare (free : LeftRecursionFree grammar) {start : Rule} {stream : List Token}
    {index depth : Nat} {preferred : List Rule} {ignored : List Kind} {candidates : Candidates}
    (discreet : Discreet grammar ⟨(tokensUntil index stream).toArray, preferred, ignored⟩)
    (forestalled : Forestalled grammar ⟨(tokensUntil index stream).toArray, preferred, ignored⟩ kind
      early late around) (other : start ≠ late)
    (ran : collect grammar start stream index preferred ignored depth = .ok candidates) :
    ∀ candidate ∈ candidates.tokens, candidate.kind = kind → candidate.Bare := by
  obtain ⟨-, rfl⟩ | ⟨ends, state, walked, rfl⟩ := walk_of_collect ran
  · exact List.forall_mem_nil _
  exact walkRule_bare free discreet forestalled depth start 0 [] ∅ (Nat.zero_le _)
    (.inl (List.forall_mem_nil _)) (fun _ => False.elim) settled_empty (List.forall_mem_nil _)
    (fun same => absurd same other) walked

end CypherAssist.Grammar
