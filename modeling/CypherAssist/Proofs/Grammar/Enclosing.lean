import CypherAssist.Proofs.Grammar.FollowUp
import CypherAssist.Proofs.Grammar.Naming
import CypherAssist.Proofs.Grammar.Reading

/-! The rules open on a path. Each of them is mentioned by the one around it, so a rule that only
some rules lead to has one of them around it, and a rule that leads only to some is around no other.
Where a rule is never closed, a path that does not have it open does not need it at all. -/
namespace CypherAssist.Grammar
open Token Relation Outcomes

variable {grammar : Grammar} {input : List Kind} {first target : Rule} {stack : List Frame}
  {follow : List Element} {origin place : Nat}

/-! ## Rule by rule -/

theorem references_subset {items : List Element} (member : item ∈ items) :
    item.references ⊆ Element.referencesOfAll items := by
  induction items with
  | nil => cases member
  | cons head rest ih =>
    rw [Element.referencesOfAll]
    rcases List.mem_cons.mp member with rfl | member
    · exact List.subset_append_left ..
    · exact List.Subset.trans (ih member) (List.subset_append_right ..)

/-- What a part refers to, the whole refers to. -/
theorem references_of_comes {whole : Element}
    (comes : Comes grammar input whole origin element follow place) :
    element.references ⊆ whole.references := by
  induction comes with
  | whole => exact List.Subset.refl _
  | part _ _ ih => exact List.Subset.trans (references_subset (by simp)) ih
  | option _ member ih => exact List.Subset.trans (references_subset member) ih
  | optional _ ih | repeated _ _ ih => exact ih

/-- A path stands in front of the first rule, or in the right-hand side of the innermost rule, in
front of which it has stood before. -/
inductive Inside (grammar : Grammar) (input : List Kind) (first : Rule) :
    List Frame → Element → List Element → Nat → Prop where
  | start : Inside grammar input first [] (.reference first) [] 0
  | within {follow : List Element} {origin : Nat} (defined : grammar rule = some body)
    (entered : Stands grammar input first outer (.reference rule) behind origin)
    (comes : Comes grammar input body origin element follow position) :
    Inside grammar input first (⟨rule, origin⟩ :: outer) element follow position

theorem inside_of_stands (stands : Stands grammar input first stack element follow position) :
    Inside grammar input first stack element follow position := by
  induction stands with
  | start => exact .start
  | enter outside defined => exact .within defined outside .whole
  | part _ passed ih =>
    cases ih with
    | within defined entered comes => exact .within defined entered (.part comes passed)
  | option _ member ih =>
    cases ih with
    | within defined entered comes => exact .within defined entered (.option comes member)
  | optional _ ih =>
    cases ih with
    | within defined entered comes => exact .within defined entered (.optional comes)
  | repeated _ passed ih =>
    cases ih with
    | within defined entered comes => exact .within defined entered (.repeated comes passed)

/-- A path stands in front of the first rule, or in an element of the innermost rule, which mentions
all that the element does. -/
inductive Around (grammar : Grammar) (input : List Kind) (first : Rule) :
    List Frame → Element → Prop where
  | start : Around grammar input first [] (.reference first)
  | within (defined : grammar rule = some body)
    (mentions : element.references ⊆ body.references)
    (entered : Stands grammar input first outer (.reference rule) behind position) :
    Around grammar input first (⟨rule, position⟩ :: outer) element

theorem around_of_stands (stands : Stands grammar input first stack element follow position) :
    Around grammar input first stack element := by
  cases inside_of_stands stands with
  | start => exact .start
  | within defined entered comes => exact .within defined (references_of_comes comes) entered

/-- A path in front of a rule is at its beginning, or the innermost rule mentions the rule. -/
theorem mentions_of_around {frame : Frame} {outer : List Frame}
    (around : Around grammar input first (frame :: outer) (.reference target)) :
    Mentions grammar frame.rule target ∧
      Around grammar input first outer (.reference frame.rule) := by
  cases around with
  | within defined mentions entered =>
    exact ⟨⟨_, defined, mentions (List.mem_singleton_self target)⟩, around_of_stands entered⟩

theorem mem_enclosing : rule ∈ stack.reverse.map (·.rule) ↔ ∃ frame ∈ stack, frame.rule = rule := by
  simp

/-- Each rule that is open has been stood in front of. -/
theorem stands_of_open {frame : Frame} (stands : Stands grammar input first stack element follow
    position) (opened : frame ∈ stack) :
    ∃ outer behind,
      Stands grammar input first outer (.reference frame.rule) behind frame.start := by
  induction stack generalizing element follow position with
  | nil => cases opened
  | cons top outer ih =>
    cases around_of_stands stands with
    | within _ _ entered =>
      rcases List.mem_cons.mp opened with rfl | opened
      · exact ⟨outer, _, entered⟩
      · exact ih entered opened

/-- Inside rules that mention each other only, whatever is open or ahead is one of them. -/
theorem holds_of_open {holds : Rule → Prop}
    (closed : ∀ rule target, holds rule → Mentions grammar rule target → holds target)
    (around : Around grammar input first stack (.reference target)) {frame : Frame}
    (opened : frame ∈ stack) (inside : holds frame.rule) : holds target := by
  induction stack generalizing target with
  | nil => cases opened
  | cons top outer ih =>
    obtain ⟨mentions, outside⟩ := mentions_of_around around
    rcases List.mem_cons.mp opened with rfl | opened
    · exact closed _ _ inside mentions
    · exact closed _ _ (ih outside opened) mentions

/-- Rules that only they and a gate mention are reached through the gate. -/
theorem open_of_gate {holds : Rule → Prop} {gate : Rule}
    (guarded : ∀ rule target, holds target → Mentions grammar rule target →
      holds rule ∨ rule = gate)
    (around : Around grammar input first stack (.reference target)) (ahead : holds target)
    (apart : ¬ holds first) : ∃ frame ∈ stack, frame.rule = gate := by
  induction stack generalizing target with
  | nil =>
    cases around
    exact absurd ahead apart
  | cons top outer ih =>
    obtain ⟨mentions, outside⟩ := mentions_of_around around
    rcases guarded _ _ ahead mentions with holds | same
    · obtain ⟨frame, opened, same⟩ := ih outside holds
      exact ⟨frame, List.mem_cons_of_mem _ opened, same⟩
    · exact ⟨top, List.mem_cons_self .., same⟩

/-! ## Along a sequence -/

/-- Behind some items of a sequence a path stands in front of the next. -/
theorem stands_at {items rest : List Element} {item : Element} (before : List Element)
    (stands : Stands grammar input first stack (.sequence items) follow origin)
    (split : items = before ++ item :: rest)
    (passed : Spans grammar input (.sequence before) origin place) :
    Stands grammar input first stack item (rest ++ follow) place := by
  subst split
  exact .part stands passed

theorem stands_begun {items : List Element} {item : Element}
    (stands : Stands grammar input first stack (.sequence (item :: items)) follow place) :
    Stands grammar input first stack item (items ++ follow) place :=
  stands_at [] stands rfl .empty

/-! ## What may be open -/

/-- Where a rule can be entered, every word of it can follow. -/
theorem viable_of_stands (productive : Productive grammar) (defined : (grammar first).isSome)
    (stands : Stands grammar input first stack (.reference target) follow position)
    (word : Word grammar (.reference target) ahead) :
    Viable grammar first (input.take position ++ ahead) := by
  obtain ⟨behind, following⟩ := (fruitful_of_stands productive defined stands).2 _
    (Element.mem_subelements_self _)
  obtain ⟨rest, whole⟩ := word_of_stands productive defined stands (.sequence word following)
  exact ⟨behind ++ rest, by simpa using whole⟩

/-- A rule is not open where no place before takes some word of it. -/
theorem not_enclosing (productive : Productive grammar) (defined : (grammar first).isSome)
    (word : Word grammar (.reference rule) ahead)
    (misfits : ∀ place ≤ input.length, ¬ Viable grammar first (input.take place ++ ahead))
    (stands : Stands grammar input first stack element follow position) :
    rule ∉ stack.reverse.map (·.rule) := by
  rw [mem_enclosing]
  rintro ⟨frame, opened, rfl⟩
  obtain ⟨outer, behind, entered⟩ := stands_of_open stands opened
  have viable := viable_of_stands productive defined entered word
  rcases Nat.le_total frame.start input.length with inside | beyond
  · exact misfits _ inside viable
  · rw [List.take_of_length_le beyond, ← List.take_length (l := input)] at viable
    exact misfits _ (Nat.le_refl _) viable

/-- A path leads on to where it stands through rules that are open there. -/
theorem meets_of_stands {admitted : Rule → Prop}
    (stands : Stands grammar input first stack element follow position)
    (opened : ∀ frame ∈ stack, admitted frame.rule)
    (meets : Meets grammar admitted input element position place asked) :
    Meets grammar admitted input (.reference first) 0 place asked := by
  induction stands with
  | start => exact meets
  | enter _ defined ih =>
    obtain ⟨admits, below⟩ := List.forall_mem_cons.mp opened
    exact ih below (.reference admits defined meets)
  | part _ passed ih => exact ih opened (meets_append passed (.head meets))
  | option _ member ih => exact ih opened (.choice member meets)
  | optional _ ih => exact ih opened (.optional meets)
  | repeated _ passed ih => exact ih opened (meets_repeated_iff.mpr ⟨_, passed, meets⟩)

/-! ## Leaving rules out -/

/-- A grammar with some of its rules left undefined. -/
def without (grammar : Grammar) (excluded : List Rule) : Grammar :=
  fun rule => if rule ∈ excluded then none else grammar rule

variable {excluded : List Rule}

theorem without_eq_some : without grammar excluded rule = some element ↔
    rule ∉ excluded ∧ grammar rule = some element := by
  rw [without]
  split <;> simp [*]

theorem word_of_without (word : Word (without grammar excluded) element kinds) :
    Word grammar element kinds := by
  induction word with
  | token => exact .token
  | reference defined _ ih => exact .reference (without_eq_some.mp defined).2 ih
  | empty => exact .empty
  | sequence _ _ ihFirst ihSecond => exact .sequence ihFirst ihSecond
  | choice member _ ih => exact .choice member ih
  | skipped => exact .skipped
  | taken _ ih => exact .taken ih
  | done => exact .done
  | again _ _ ihFirst ihSecond => exact .again ihFirst ihSecond

theorem opens_of_without (opens : Opens (without grammar excluded) element rule) :
    Opens grammar element rule := by
  induction opens with
  | reference => exact .reference
  | head _ ih => exact .head ih
  | tail nullable _ ih => exact .tail (word_of_without nullable) ih
  | choice member _ ih => exact .choice member ih
  | optional _ ih => exact .optional ih
  | repeated _ ih => exact .repeated ih

/-- Leaving rules out makes no rule left-recursive. -/
theorem leftRecursionFree_without (free : LeftRecursionFree grammar) (excluded : List Rule) :
    LeftRecursionFree (without grammar excluded) := by
  refine fun rule around => free rule (TransGen.mono (fun above below => ?_) rule rule around)
  rintro ⟨element, defined, opens⟩
  exact ⟨element, (without_eq_some.mp defined).2, opens_of_without opens⟩

/-- No word of the rules that are left out lies in the text from a position on. -/
def Unclosed (grammar : Grammar) (input : List Kind) (excluded : List Rule) (origin : Nat) : Prop :=
  ∀ rule ∈ excluded, ∀ start stop, origin ≤ start →
    ¬ Spans grammar input (.reference rule) start stop

theorem unclosed_of_le (unclosed : Unclosed grammar input excluded origin)
    (later : origin ≤ position) : Unclosed grammar input excluded position :=
  fun rule member start stop behind => unclosed rule member start stop (Nat.le_trans later behind)

theorem spans_without (spans : Spans grammar input element origin place)
    (unclosed : Unclosed grammar input excluded origin) :
    Spans (without grammar excluded) input element origin place := by
  induction spans with
  | token found => exact .token found
  | @reference rule element origin place defined body ih =>
    refine .reference (without_eq_some.mpr ⟨fun member => ?_, defined⟩) (ih unclosed)
    exact unclosed rule member origin place (Nat.le_refl _) (.reference defined body)
  | empty => exact .empty
  | sequence first _ ihFirst ihSecond =>
    have ordered := spans_le first
    exact .sequence (ihFirst unclosed) (ihSecond (unclosed_of_le unclosed (by omega)))
  | choice member _ ih => exact .choice member (ih unclosed)
  | skipped => exact .skipped
  | taken _ ih => exact .taken (ih unclosed)
  | done => exact .done
  | again first _ ihFirst ihSecond =>
    have ordered := spans_le first
    exact .again (ihFirst unclosed) (ihSecond (unclosed_of_le unclosed (by omega)))

/-- A reading that neither closes nor has open any of the rules left out does without them. -/
theorem meets_without (meets : Meets grammar (· ∉ excluded) input element origin place asked)
    (unclosed : Unclosed grammar input excluded origin) :
    Meets (without grammar excluded) anyRule input element origin place asked := by
  induction meets with
  | token => exact .token
  | reference enters defined _ ih =>
    exact .reference trivial (without_eq_some.mpr ⟨enters, defined⟩) (ih unclosed)
  | head _ ih => exact .head (ih unclosed)
  | tail before _ ih =>
    have ordered := spans_le before
    exact .tail (spans_without before unclosed) (ih (unclosed_of_le unclosed (by omega)))
  | choice member _ ih => exact .choice member (ih unclosed)
  | optional _ ih => exact .optional (ih unclosed)
  | first _ ih => exact .first (ih unclosed)
  | later before _ ih =>
    have ordered := spans_le before
    exact .later (spans_without before unclosed) (ih (unclosed_of_le unclosed (by omega)))

/-- A rule that is read to the end of the text, with nothing open or closed that is left out, is cut
short there in the smaller grammar too. -/
theorem cut_without (free : LeftRecursionFree grammar)
    (meets : Meets grammar (· ∉ excluded) input (.reference rule) origin input.length asked)
    (unclosed : Unclosed grammar input excluded origin) :
    (reading (without grammar excluded) input rule origin).reaches .cut :=
  (reading_cut_iff (leftRecursionFree_without free excluded)).mpr
    ⟨_, asked, meets_without meets unclosed, List.getElem?_eq_none (Nat.le_refl _)⟩

/-- Rules that are never empty are closed nowhere if no reading of theirs ends in the text. -/
theorem unclosed_of_reading (free : LeftRecursionFree grammar)
    (solid : ∀ rule ∈ excluded, ¬ Word grammar (.reference rule) [])
    (checked : ∀ rule ∈ excluded, ∀ start < input.length, origin ≤ start →
      ∀ outcome ∈ reading grammar input rule start, outcome.1 = .cut) :
    Unclosed grammar input excluded origin := by
  intro rule member start stop behind spans
  rcases spans_le spans with rfl | moved
  · exact solid rule member (nullable_of_spans spans)
  · obtain ⟨derivation, found⟩ := reaches_iff.mp ((reading_reaches_iff free).mpr spans)
    cases checked rule member start (by omega) behind _ found

end CypherAssist.Grammar
