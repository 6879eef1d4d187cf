import CypherAssist.Proofs.Grammar.LeftCorner

/-! Paths through an element over a text. The words and readings of a language are placed at
positions here, which is how parsing and completion meet them: `Spans` places a word, `Meets` says
where a reading arrives at a token, and `Calls` bounds the rules that are entered on the way. -/
namespace CypherAssist.Grammar
open Token Relation

/-- A word of the element lies in the text between two positions. -/
inductive Spans (grammar : Grammar) (input : List Kind) : Element → Nat → Nat → Prop where
  | token {kind : Kind} (found : input[position]? = some kind) :
    Spans grammar input (.token kind) position (position + 1)
  | reference (defined : grammar rule = some element)
    (body : Spans grammar input element origin target) :
    Spans grammar input (.reference rule) origin target
  | empty : Spans grammar input (.sequence []) position position
  | sequence (first : Spans grammar input item origin middle)
    (second : Spans grammar input (.sequence rest) middle target) :
    Spans grammar input (.sequence (item :: rest)) origin target
  | choice (member : option ∈ options) (chosen : Spans grammar input option origin target) :
    Spans grammar input (.choice options) origin target
  | skipped : Spans grammar input (.optional item) position position
  | taken (inside : Spans grammar input item origin target) :
    Spans grammar input (.optional item) origin target
  | done : Spans grammar input (.repeated item) position position
  | again (first : Spans grammar input item origin middle)
    (second : Spans grammar input (.repeated item) middle target) :
    Spans grammar input (.repeated item) origin target

/-- A reading of the element that starts at one position arrives at a token element of this kind
at another, whatever token is found there. The rules open on the way are admitted. -/
inductive Meets (grammar : Grammar) (admitted : Rule → Prop) (input : List Kind) :
    Element → Nat → Nat → Kind → Prop where
  | token : Meets grammar admitted input (.token asked) position position asked
  | reference (enters : admitted rule) (defined : grammar rule = some element)
    (inside : Meets grammar admitted input element origin target asked) :
    Meets grammar admitted input (.reference rule) origin target asked
  | head (inside : Meets grammar admitted input item origin target asked) :
    Meets grammar admitted input (.sequence (item :: rest)) origin target asked
  | tail (before : Spans grammar input item origin middle)
    (inside : Meets grammar admitted input (.sequence rest) middle target asked) :
    Meets grammar admitted input (.sequence (item :: rest)) origin target asked
  | choice (member : option ∈ options)
    (inside : Meets grammar admitted input option origin target asked) :
    Meets grammar admitted input (.choice options) origin target asked
  | optional (inside : Meets grammar admitted input item origin target asked) :
    Meets grammar admitted input (.optional item) origin target asked
  | first (inside : Meets grammar admitted input item origin target asked) :
    Meets grammar admitted input (.repeated item) origin target asked
  | later (before : Spans grammar input item origin middle)
    (inside : Meets grammar admitted input (.repeated item) middle target asked) :
    Meets grammar admitted input (.repeated item) origin target asked

variable {grammar : Grammar} {input : List Kind} {kind : Kind} {start stop place : Nat}

/-! ## Words at positions -/

theorem append_prefix_drop {first second : List Kind} :
    first ++ second <+: input.drop start ↔
      first <+: input.drop start ∧ second <+: input.drop (start + first.length) := by
  constructor
  · intro whole
    have before := (List.prefix_append first second).trans whole
    obtain ⟨rest, split⟩ := whole
    refine ⟨before, rest, ?_⟩
    rw [← List.drop_drop, ← split, List.append_assoc, List.drop_left]
  · rintro ⟨⟨rest, split⟩, tail⟩
    rw [← List.drop_drop, ← split, List.drop_left] at tail
    rw [← split]
    exact (List.prefix_append_right_inj first).mpr tail

theorem singleton_prefix_drop :
    [kind] <+: input.drop start ↔ input[start]? = some kind := by
  rw [← List.head?_drop]
  constructor
  · rintro ⟨rest, split⟩
    rw [← split]
    rfl
  · intro head
    obtain ⟨rest, split⟩ := List.head?_eq_some_iff.mp head
    exact ⟨rest, split.symm⟩

theorem spans_of_word (word : Word grammar element kinds) (placed : kinds <+: input.drop start) :
    Spans grammar input element start (start + kinds.length) := by
  induction word generalizing start with
  | token => exact .token (singleton_prefix_drop.mp placed)
  | reference defined _ ih => exact .reference defined (ih placed)
  | empty => exact .empty
  | sequence _ _ ihFirst ihSecond =>
    obtain ⟨here, there⟩ := append_prefix_drop.mp placed
    rw [List.length_append, ← Nat.add_assoc]
    exact .sequence (ihFirst here) (ihSecond there)
  | choice member _ ih => exact .choice member (ih placed)
  | skipped => exact .skipped
  | taken _ ih => exact .taken (ih placed)
  | done => exact .done
  | again _ _ ihFirst ihSecond =>
    obtain ⟨here, there⟩ := append_prefix_drop.mp placed
    rw [List.length_append, ← Nat.add_assoc]
    exact .again (ihFirst here) (ihSecond there)

theorem word_of_spans (spans : Spans grammar input element start stop) :
    ∃ kinds, Word grammar element kinds ∧ kinds <+: input.drop start ∧
      stop = start + kinds.length := by
  induction spans with
  | token found => exact ⟨_, .token, singleton_prefix_drop.mpr found, rfl⟩
  | reference defined _ ih =>
    obtain ⟨kinds, word, placed, rfl⟩ := ih
    exact ⟨kinds, .reference defined word, placed, rfl⟩
  | empty => exact ⟨[], .empty, List.nil_prefix, rfl⟩
  | sequence _ _ ihFirst ihSecond =>
    obtain ⟨first, word, here, rfl⟩ := ihFirst
    obtain ⟨second, words, there, rfl⟩ := ihSecond
    exact ⟨first ++ second, .sequence word words, append_prefix_drop.mpr ⟨here, there⟩, by
      rw [List.length_append, Nat.add_assoc]⟩
  | choice member _ ih =>
    obtain ⟨kinds, word, placed, rfl⟩ := ih
    exact ⟨kinds, .choice member word, placed, rfl⟩
  | skipped => exact ⟨[], .skipped, List.nil_prefix, rfl⟩
  | taken _ ih =>
    obtain ⟨kinds, word, placed, rfl⟩ := ih
    exact ⟨kinds, .taken word, placed, rfl⟩
  | done => exact ⟨[], .done, List.nil_prefix, rfl⟩
  | again _ _ ihFirst ihSecond =>
    obtain ⟨first, word, here, rfl⟩ := ihFirst
    obtain ⟨second, words, there, rfl⟩ := ihSecond
    exact ⟨first ++ second, .again word words, append_prefix_drop.mpr ⟨here, there⟩, by
      rw [List.length_append, Nat.add_assoc]⟩

/-- A word lies between two positions exactly when the kinds between them are one. -/
theorem spans_iff (inside : start ≤ input.length) :
    Spans grammar input element start stop ↔
      start ≤ stop ∧ stop ≤ input.length ∧
        Word grammar element ((input.drop start).take (stop - start)) := by
  constructor
  · intro spans
    obtain ⟨kinds, word, placed, rfl⟩ := word_of_spans spans
    have short := placed.length_le
    rw [List.length_drop] at short
    refine ⟨by omega, by omega, ?_⟩
    rw [Nat.add_sub_cancel_left, ← List.prefix_iff_eq_take.mp placed]
    exact word
  · rintro ⟨ordered, within, word⟩
    have spans := spans_of_word word (List.take_prefix _ _)
    rw [List.length_take, List.length_drop] at spans
    rwa [show start + min (stop - start) (input.length - start) = stop by omega] at spans

/-- A path never goes back, and only tokens move it on. -/
theorem spans_le (spans : Spans grammar input element start stop) :
    start = stop ∨ (start < stop ∧ stop ≤ input.length) := by
  obtain ⟨kinds, -, placed, rfl⟩ := word_of_spans spans
  have short := placed.length_le
  rw [List.length_drop] at short
  cases kinds with
  | nil => exact .inl rfl
  | cons => simp only [List.length_cons] at short ⊢; omega

theorem nullable_of_spans (spans : Spans grammar input element start start) :
    Word grammar element [] := by
  obtain ⟨kinds, word, -, same⟩ := word_of_spans spans
  have empty : kinds = [] := List.eq_nil_of_length_eq_zero (by omega)
  rwa [empty] at word

/-- A repetition may be extended at its end as well as at its start. -/
theorem spans_snoc (before : Spans grammar input (.repeated item) start middle)
    (last : Spans grammar input item middle stop) :
    Spans grammar input (.repeated item) start stop := by
  generalize same : Element.repeated item = element at before
  induction before with
  | done => cases same; exact .again last .done
  | again first _ _ ih => cases same; exact .again first (ih last rfl)
  | _ => cases same

theorem spans_reference_iff (defined : grammar rule = some element) :
    Spans grammar input (.reference rule) start stop ↔ Spans grammar input element start stop := by
  constructor
  · intro spans
    cases spans with
    | reference same body =>
      cases defined.symm.trans same
      exact body
  · exact .reference defined

theorem spans_cons_iff :
    Spans grammar input (.sequence (item :: rest)) start stop ↔
      ∃ middle, Spans grammar input item start middle ∧
        Spans grammar input (.sequence rest) middle stop := by
  constructor
  · intro spans
    cases spans with
    | sequence first second => exact ⟨_, first, second⟩
  · rintro ⟨middle, first, second⟩
    exact .sequence first second

theorem spans_choice_iff :
    Spans grammar input (.choice options) start stop ↔
      ∃ option ∈ options, Spans grammar input option start stop := by
  constructor
  · intro spans
    cases spans with
    | choice member chosen => exact ⟨_, member, chosen⟩
  · rintro ⟨option, member, chosen⟩
    exact .choice member chosen

theorem spans_optional_iff :
    Spans grammar input (.optional item) start stop ↔
      stop = start ∨ Spans grammar input item start stop := by
  constructor
  · intro spans
    cases spans with
    | skipped => exact .inl rfl
    | taken inside => exact .inr inside
  · rintro (rfl | inside)
    · exact .skipped
    · exact .taken inside

/-- A repetition leads where its item leads step by step. -/
theorem spans_repeated_iff :
    Spans grammar input (.repeated item) start stop ↔
      ReflTransGen (Spans grammar input item) start stop := by
  constructor
  · intro spans
    generalize same : Element.repeated item = element at spans
    induction spans with
    | done => exact .refl
    | again first _ _ ih => cases same; exact .head first (ih rfl)
    | _ => cases same
  · intro steps
    induction steps with
    | refl => exact .done
    | tail _ last ih => exact spans_snoc ih last

/-! ## Readings at positions -/

theorem meets_of_awaits (awaits : Awaits grammar admitted element seen kind)
    (placed : seen <+: input.drop start) :
    Meets grammar admitted input element start (start + seen.length) kind := by
  induction awaits generalizing start with
  | token => exact .token
  | reference enters defined _ ih => exact .reference enters defined (ih placed)
  | head _ ih => exact .head (ih placed)
  | tail before _ ih =>
    obtain ⟨here, there⟩ := append_prefix_drop.mp placed
    rw [List.length_append, ← Nat.add_assoc]
    exact .tail (spans_of_word before here) (ih there)
  | choice member _ ih => exact .choice member (ih placed)
  | optional _ ih => exact .optional (ih placed)
  | first _ ih => exact .first (ih placed)
  | later before _ ih =>
    obtain ⟨here, there⟩ := append_prefix_drop.mp placed
    rw [List.length_append, ← Nat.add_assoc]
    exact .later (spans_of_word before here) (ih there)

theorem awaits_of_meets (meets : Meets grammar admitted input element start place kind) :
    ∃ seen, Awaits grammar admitted element seen kind ∧ seen <+: input.drop start ∧
      place = start + seen.length := by
  induction meets with
  | token => exact ⟨[], .token, List.nil_prefix, rfl⟩
  | reference enters defined _ ih =>
    obtain ⟨seen, awaits, placed, rfl⟩ := ih
    exact ⟨seen, .reference enters defined awaits, placed, rfl⟩
  | head _ ih =>
    obtain ⟨seen, awaits, placed, rfl⟩ := ih
    exact ⟨seen, .head awaits, placed, rfl⟩
  | tail before _ ih =>
    obtain ⟨kinds, word, here, rfl⟩ := word_of_spans before
    obtain ⟨seen, awaits, there, rfl⟩ := ih
    exact ⟨kinds ++ seen, .tail word awaits, append_prefix_drop.mpr ⟨here, there⟩, by
      rw [List.length_append, Nat.add_assoc]⟩
  | choice member _ ih =>
    obtain ⟨seen, awaits, placed, rfl⟩ := ih
    exact ⟨seen, .choice member awaits, placed, rfl⟩
  | optional _ ih =>
    obtain ⟨seen, awaits, placed, rfl⟩ := ih
    exact ⟨seen, .optional awaits, placed, rfl⟩
  | first _ ih =>
    obtain ⟨seen, awaits, placed, rfl⟩ := ih
    exact ⟨seen, .first awaits, placed, rfl⟩
  | later before _ ih =>
    obtain ⟨kinds, word, here, rfl⟩ := word_of_spans before
    obtain ⟨seen, awaits, there, rfl⟩ := ih
    exact ⟨kinds ++ seen, .later word awaits, append_prefix_drop.mpr ⟨here, there⟩, by
      rw [List.length_append, Nat.add_assoc]⟩

/-- A reading arrives at a place exactly when it has read the kinds before it. -/
theorem meets_iff (inside : start ≤ input.length) :
    Meets grammar admitted input element start place kind ↔
      start ≤ place ∧ place ≤ input.length ∧
        Awaits grammar admitted element ((input.drop start).take (place - start)) kind := by
  constructor
  · intro meets
    obtain ⟨seen, awaits, placed, rfl⟩ := awaits_of_meets meets
    have short := placed.length_le
    rw [List.length_drop] at short
    refine ⟨by omega, by omega, ?_⟩
    rw [Nat.add_sub_cancel_left, ← List.prefix_iff_eq_take.mp placed]
    exact awaits
  · rintro ⟨ordered, within, awaits⟩
    have meets := meets_of_awaits awaits (List.take_prefix _ (input.drop start))
    rw [List.length_take, List.length_drop] at meets
    rwa [show start + min (place - start) (input.length - start) = place by omega] at meets

/-! ## Readings of parts -/

theorem meets_reference_iff (defined : grammar rule = some element) :
    Meets grammar admitted input (.reference rule) start place kind ↔
      admitted rule ∧ Meets grammar admitted input element start place kind := by
  constructor
  · intro meets
    cases meets with
    | reference enters same inside =>
      cases defined.symm.trans same
      exact ⟨enters, inside⟩
  · rintro ⟨enters, inside⟩
    exact .reference enters defined inside

theorem meets_cons_iff :
    Meets grammar admitted input (.sequence (item :: rest)) start place kind ↔
      Meets grammar admitted input item start place kind ∨
        ∃ middle, Spans grammar input item start middle ∧
          Meets grammar admitted input (.sequence rest) middle place kind := by
  constructor
  · intro meets
    cases meets with
    | head inside => exact .inl inside
    | tail before inside => exact .inr ⟨_, before, inside⟩
  · rintro (inside | ⟨middle, before, inside⟩)
    · exact .head inside
    · exact .tail before inside

theorem meets_choice_iff :
    Meets grammar admitted input (.choice options) start place kind ↔
      ∃ option ∈ options, Meets grammar admitted input option start place kind := by
  constructor
  · intro meets
    cases meets with
    | choice member inside => exact ⟨_, member, inside⟩
  · rintro ⟨option, member, inside⟩
    exact .choice member inside

theorem meets_optional_iff :
    Meets grammar admitted input (.optional item) start place kind ↔
      Meets grammar admitted input item start place kind := by
  constructor
  · intro meets
    cases meets with
    | optional inside => exact inside
  · exact .optional

theorem meets_repeated_iff :
    Meets grammar admitted input (.repeated item) start place kind ↔
      ∃ middle, Spans grammar input (.repeated item) start middle ∧
        Meets grammar admitted input item middle place kind := by
  constructor
  · intro meets
    generalize same : Element.repeated item = element at meets
    induction meets with
    | first inside => cases same; exact ⟨_, .done, inside⟩
    | later before _ ih =>
      cases same
      obtain ⟨middle, spans, inside⟩ := ih rfl
      exact ⟨middle, .again before spans, inside⟩
    | _ => cases same
  · rintro ⟨middle, spans, inside⟩
    generalize same : Element.repeated item = element at spans
    induction spans with
    | done => cases same; exact .first inside
    | again before _ _ ih => cases same; exact .later before (ih inside rfl)
    | _ => cases same

/-- A choice of single tokens asks for them where it stands. -/
theorem start_eq_of_tokens (single : ∀ option ∈ options, ∃ kind, option = .token kind)
    (meets : Meets grammar admitted input (.choice options) start place kind) :
    start = place := by
  obtain ⟨option, member, inside⟩ := meets_choice_iff.mp meets
  obtain ⟨kind, rfl⟩ := single option member
  cases inside
  rfl

/-- A token that a path asks for stands in the element or in a rule that the path enters. -/
theorem token_of_meets (meets : Meets grammar admitted input element start place kind) :
    .token kind ∈ element.subelements ∨ ∃ rule body, admitted rule ∧ grammar rule = some body ∧
      .token kind ∈ body.subelements := by
  induction meets with
  | token => exact .inl (Element.mem_subelements_self _)
  | reference enters defined _ ih =>
    exact .inr (ih.elim (fun inside => ⟨_, _, enters, defined, inside⟩) id)
  | head _ ih =>
    exact ih.imp_left fun inside =>
      List.mem_cons_of_mem _ (Element.mem_subelementsOfAll.mpr ⟨_, List.mem_cons_self .., inside⟩)
  | tail _ _ ih =>
    refine ih.imp_left fun inside => List.mem_cons_of_mem _ ?_
    obtain ⟨item, member, inside⟩ := Element.mem_subelementsOfAll.mp
      ((List.mem_cons.mp inside).resolve_left nofun)
    exact Element.mem_subelementsOfAll.mpr ⟨item, List.mem_cons_of_mem _ member, inside⟩
  | choice member _ ih =>
    exact ih.imp_left fun inside =>
      List.mem_cons_of_mem _ (Element.mem_subelementsOfAll.mpr ⟨_, member, inside⟩)
  | optional _ ih | first _ ih => exact ih.imp_left (List.mem_cons_of_mem _)
  | later _ _ ih => exact ih

/-! ## Rules entered -/

/-- Where a rule may be entered from an element at a position: behind a token, or at the same
position if the element opens the rule. -/
def Calls (grammar : Grammar) (size : Nat) (element : Element) (start : Nat) (rule : Rule)
    (place : Nat) : Prop :=
  rule ∈ element.references ∧
    ((start < place ∧ place ≤ size) ∨ (place = start ∧ Opens grammar element rule))

theorem calls_reference : Calls grammar size (.reference rule) start rule start :=
  ⟨by simp [Element.references], .inr ⟨rfl, .reference⟩⟩

theorem calls_head (calls : Calls grammar size item start rule place) :
    Calls grammar size (.sequence (item :: rest)) start rule place := by
  refine ⟨?_, calls.2.imp_right fun here => ⟨here.1, .head here.2⟩⟩
  simp [Element.references, Element.referencesOfAll, calls.1]

theorem calls_tail (before : Spans grammar input item start middle)
    (calls : Calls grammar input.length (.sequence rest) middle rule place) :
    Calls grammar input.length (.sequence (item :: rest)) start rule place := by
  obtain ⟨member, entered⟩ := calls
  refine ⟨?_, ?_⟩
  · simp only [Element.references] at member
    simp [Element.references, Element.referencesOfAll, member]
  rcases spans_le before with rfl | moved
  · exact entered.imp_right fun here => ⟨here.1, .tail (nullable_of_spans before) here.2⟩
  · rcases entered with later | ⟨rfl, -⟩
    · exact .inl ⟨by omega, later.2⟩
    · exact .inl moved

theorem calls_choice (member : option ∈ options)
    (calls : Calls grammar size option start rule place) :
    Calls grammar size (.choice options) start rule place := by
  refine ⟨?_, calls.2.imp_right fun here => ⟨here.1, .choice member here.2⟩⟩
  obtain ⟨mentioned, -⟩ := calls
  simp only [Element.references]
  induction options with
  | nil => cases member
  | cons first rest ih =>
    rcases List.mem_cons.mp member with rfl | member
    · simp [Element.referencesOfAll, mentioned]
    · simp [Element.referencesOfAll, ih member]

theorem calls_optional (calls : Calls grammar size item start rule place) :
    Calls grammar size (.optional item) start rule place :=
  ⟨calls.1, calls.2.imp_right fun here => ⟨here.1, .optional here.2⟩⟩

theorem calls_repeated (before : Spans grammar input (.repeated item) start middle)
    (calls : Calls grammar input.length item middle rule place) :
    Calls grammar input.length (.repeated item) start rule place := by
  refine ⟨calls.1, ?_⟩
  rcases spans_le before with rfl | moved
  · exact calls.2.imp_right fun here => ⟨here.1, .repeated here.2⟩
  · rcases calls.2 with later | ⟨rfl, -⟩
    · exact .inl ⟨by omega, later.2⟩
    · exact .inl moved

end CypherAssist.Grammar
