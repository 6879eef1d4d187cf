import CypherAssist.Proofs.Grammar.Enclosing

/-! Phases of a text. A finite automaton runs over the kinds of the tokens, and a table bounds the
phases in which each rule may end. The table is right once it is closed under right-hand sides,
which is a finite check; so is what it says of the places to which a path inside a rule may come. -/
namespace CypherAssist.Grammar
open Token

/-- A finite automaton over the kinds of tokens, and for each rule the phases in which it may end
where it starts in a phase. -/
structure Scheme (σ : Type) where
  all : List σ
  listed : ∀ phase, phase ∈ all
  advance : σ → Kind → σ
  ends : Rule → σ → List σ

/-- A token or a rule in a right-hand side, the elements behind it, and a phase in which a path
comes to it. -/
structure Site (σ : Type) where
  part : Element
  follow : List Element
  phase : σ

namespace Scheme
variable {σ : Type} (scheme : Scheme σ)

/-- The phase behind a text that is begun in a phase. -/
def after (phase : σ) (kinds : List Kind) : σ := kinds.foldl scheme.advance phase

@[simp] theorem after_append (phase : σ) (first second : List Kind) :
    scheme.after phase (first ++ second) = scheme.after (scheme.after phase first) second :=
  List.foldl_append

variable [DecidableEq σ]

/-- All phases that steps lead to from those reached, in so many rounds; else all there are. -/
def spread (step : σ → List σ) : Nat → List σ → List σ
  | 0, _ => scheme.all
  | rounds + 1, reached =>
    match (reached.flatMap step).filter (· ∉ reached) with
    | [] => reached
    | fresh => spread step rounds (reached ++ fresh.eraseDups)

mutual

/-- The phases in which an element may end. -/
def leads : Element → σ → List σ
  | .token kind, phase => [scheme.advance phase kind]
  | .reference target, phase => scheme.ends target phase
  | .sequence items, phase => leadsInOrder items [phase]
  | .choice options, phase => leadsOfAny options phase
  | .optional item, phase => phase :: leads item phase
  | .repeated item, phase => scheme.spread (fun start => leads item start) scheme.all.length [phase]

/-- The phases in which elements one after the other may end. -/
def leadsInOrder : List Element → List σ → List σ
  | [], reached => reached
  | item :: rest, reached =>
    leadsInOrder rest (reached.flatMap fun start => leads item start).eraseDups

/-- The phases in which some option may end. -/
def leadsOfAny : List Element → σ → List σ
  | [], _ => []
  | option :: rest, phase => leads option phase ++ leadsOfAny rest phase

end

/-- The table bounds every right-hand side. -/
def Closed (grammar : Grammar) : Prop :=
  ∀ rule element, grammar rule = some element → ∀ phase, scheme.leads element phase ⊆
    scheme.ends rule phase

mutual

/-- The tokens and rules in an element that is followed by others, each with what follows it and the
phases in which a path may come to it. -/
def sites : Element → List Element → σ → List (Site σ)
  | .token kind, follow, phase => [⟨.token kind, follow, phase⟩]
  | .reference target, follow, phase => [⟨.reference target, follow, phase⟩]
  | .sequence items, follow, phase => sitesInOrder items follow [phase]
  | .choice options, follow, phase => sitesOfAny options follow phase
  | .optional item, follow, phase => sites item follow phase
  | .repeated item, follow, phase =>
    (scheme.leads (.repeated item) phase).flatMap fun start =>
      sites item (.repeated item :: follow) start

/-- The tokens and rules in elements one after the other. -/
def sitesInOrder : List Element → List Element → List σ → List (Site σ)
  | [], _, _ => []
  | item :: rest, follow, reached =>
    (reached.flatMap fun start => sites item (rest ++ follow) start) ++
      sitesInOrder rest follow (reached.flatMap fun start => scheme.leads item start).eraseDups

/-- The tokens and rules in all options. -/
def sitesOfAny : List Element → List Element → σ → List (Site σ)
  | [], _, _ => []
  | option :: rest, follow, phase => sites option follow phase ++ sitesOfAny rest follow phase

end

/-- Rules that may be open are entered in the phases listed for them. -/
def Guards (grammar : Grammar) (admitted : Rule → Prop) (enters : Rule → List σ) : Prop :=
  ∀ rule element, grammar rule = some element → admitted rule → ∀ phase ∈ enters rule,
    ∀ site ∈ scheme.sites element [] phase, ∀ target, site.part = .reference target →
      admitted target → site.phase ∈ enters target

variable {scheme} {grammar : Grammar} {phase origin : σ} {step : σ → List σ} {reached : List σ}

/-! ## Words -/

theorem spread_sound (rounds : Nat) :
    reached ⊆ scheme.spread step rounds reached ∧
      ∀ inside ∈ scheme.spread step rounds reached,
        step inside ⊆ scheme.spread step rounds reached := by
  induction rounds generalizing reached with
  | zero => exact ⟨fun _ _ => scheme.listed _, fun _ _ _ _ => scheme.listed _⟩
  | succ rounds ih =>
    rw [spread]
    split
    · rename_i none
      refine ⟨List.Subset.refl _, fun inside member next found => ?_⟩
      have known := List.filter_eq_nil_iff.mp none next
        (List.mem_flatMap.mpr ⟨inside, member, found⟩)
      simpa using known
    · exact ⟨fun inside member => ih.1 (List.mem_append_left _ member), ih.2⟩

theorem mem_leadsInOrder {items : List Element} :
    phase ∈ scheme.leadsInOrder items reached ↔
      ∃ start ∈ reached, phase ∈ scheme.leadsInOrder items [start] := by
  induction items generalizing reached with
  | nil => simp [leadsInOrder]
  | cons item rest ih =>
    rw [leadsInOrder, ih]
    simp only [leadsInOrder]
    constructor
    · rintro ⟨middle, found, later⟩
      obtain ⟨start, member, here⟩ := List.mem_flatMap.mp (List.mem_eraseDups.mp found)
      exact ⟨start, member, ih.mpr ⟨middle, by simpa using here, later⟩⟩
    · rintro ⟨start, member, later⟩
      obtain ⟨middle, found, later⟩ := ih.mp later
      refine ⟨middle, List.mem_eraseDups.mpr (List.mem_flatMap.mpr ⟨start, member, ?_⟩), later⟩
      simpa using found

theorem leads_cons {item : Element} {rest : List Element} {middle : σ}
    (first : middle ∈ scheme.leads item origin)
    (second : phase ∈ scheme.leads (.sequence rest) middle) :
    phase ∈ scheme.leads (.sequence (item :: rest)) origin := by
  rw [leads, leadsInOrder, mem_leadsInOrder]
  exact ⟨middle, by simpa using first, second⟩

theorem leads_of_mem {options : List Element} (member : option ∈ options)
    (inside : phase ∈ scheme.leads option origin) :
    phase ∈ scheme.leads (.choice options) origin := by
  rw [leads]
  induction options with
  | nil => cases member
  | cons other rest ih =>
    rw [leadsOfAny]
    rcases List.mem_cons.mp member with rfl | member
    · exact List.mem_append_left _ inside
    · exact List.mem_append_right _ (ih member)

/-- A word ends in a phase that its element leads to. -/
theorem after_mem_leads (closed : scheme.Closed grammar) (word : Word grammar element kinds)
    (origin : σ) : scheme.after origin kinds ∈ scheme.leads element origin := by
  -- Repetitions stay in every set of phases that their item does not lead out of.
  suffices both : scheme.after origin kinds ∈ scheme.leads element origin ∧
      ∀ item, element = .repeated item → ∀ reached : List σ,
        (∀ inside ∈ reached, scheme.leads item inside ⊆ reached) → origin ∈ reached →
          scheme.after origin kinds ∈ reached from both.1
  induction word generalizing origin with
  | token => exact ⟨List.mem_singleton_self _, nofun⟩
  | reference defined _ ih => exact ⟨closed _ _ defined _ (ih origin).1, nofun⟩
  | empty => exact ⟨List.mem_singleton_self _, nofun⟩
  | sequence _ _ ihFirst ihSecond =>
    rw [after_append]
    exact ⟨leads_cons (ihFirst _).1 (ihSecond _).1, nofun⟩
  | choice member _ ih => exact ⟨leads_of_mem member (ih origin).1, nofun⟩
  | skipped => exact ⟨List.mem_cons_self .., nofun⟩
  | taken _ ih => exact ⟨List.mem_cons_of_mem _ (ih origin).1, nofun⟩
  | done =>
    refine ⟨?_, fun item same reached inside begun => begun⟩
    rw [leads]
    exact (spread_sound _).1 (List.mem_singleton_self _)
  | @again item word words _ _ ihFirst ihSecond =>
    have stays (reached : List σ) (inside : ∀ phase ∈ reached, scheme.leads item phase ⊆ reached)
        (begun : origin ∈ reached) :
          scheme.after origin (word ++ words) ∈ reached := by
      rw [after_append]
      exact (ihSecond _).2 item rfl reached inside (inside origin begun (ihFirst origin).1)
    refine ⟨?_, fun other same reached inside begun => ?_⟩
    · rw [leads]
      exact stays _ (spread_sound _).2 ((spread_sound _).1 (List.mem_singleton_self _))
    · cases same
      exact stays reached inside begun

/-! ## Places -/

variable {input : List Kind} {begun : σ} {site : Site σ} {whole : Element}
  {follow : List Element} {entry place : Nat}

theorem phase_of_spans (closed : scheme.Closed grammar)
    (spans : Spans grammar input element entry place) (begun : σ) :
    scheme.after begun (input.take place) ∈
      scheme.leads element (scheme.after begun (input.take entry)) := by
  obtain ⟨word, derived, taken⟩ := take_of_spans spans
  rw [taken, after_append]
  exact after_mem_leads closed derived _

theorem mem_sitesInOrder {before rest : List Element}
    (passed : phase ∈ scheme.leadsInOrder before reached)
    (inside : site ∈ scheme.sites element (rest ++ follow) phase) :
    site ∈ scheme.sitesInOrder (before ++ element :: rest) follow reached := by
  induction before generalizing reached with
  | nil => exact List.mem_append_left _ (List.mem_flatMap.mpr ⟨phase, passed, inside⟩)
  | cons item others ih => exact List.mem_append_right _ (ih passed)

theorem mem_sitesOfAny {options : List Element} (member : option ∈ options)
    (inside : site ∈ scheme.sites option follow phase) :
    site ∈ scheme.sitesOfAny options follow phase := by
  induction options with
  | nil => cases member
  | cons other rest ih =>
    rcases List.mem_cons.mp member with rfl | member
    · exact List.mem_append_left _ inside
    · exact List.mem_append_right _ (ih member)

/-- What is in a part is in the whole. -/
theorem mem_sites_of_comes (closed : scheme.Closed grammar)
    (comes : Comes grammar input whole entry element follow place)
    (inside : site ∈ scheme.sites element follow (scheme.after begun (input.take place))) :
    site ∈ scheme.sites whole [] (scheme.after begun (input.take entry)) := by
  induction comes with
  | whole => exact inside
  | part _ passed ih => exact ih (mem_sitesInOrder (phase_of_spans closed passed begun) inside)
  | option _ member ih => exact ih (mem_sitesOfAny member inside)
  | optional _ ih => exact ih inside
  | repeated _ passed ih =>
    exact ih (List.mem_flatMap.mpr ⟨_, phase_of_spans closed passed begun, inside⟩)

variable {admitted : Rule → Prop} {enters : Rule → List σ} {first target : Rule}
  {stack : List Frame} {kind : Kind}

/-- A path comes to a rule in one of the phases listed for it. -/
theorem phase_of_stands (closed : scheme.Closed grammar)
    (guards : scheme.Guards grammar admitted enters) (starts : begun ∈ enters first)
    (opened : ∀ frame ∈ stack, admitted frame.rule) (admits : admitted target)
    (stands : Stands grammar input first stack (.reference target) follow place) :
    scheme.after begun (input.take place) ∈ enters target := by
  induction stack generalizing target follow place with
  | nil =>
    cases inside_of_stands stands
    exact starts
  | cons top outer ih =>
    cases inside_of_stands stands with
    | within defined entered comes =>
      obtain ⟨admitsTop, below⟩ := List.forall_mem_cons.mp opened
      have here := ih below admitsTop entered
      have site : ⟨.reference target, follow, scheme.after begun (input.take place)⟩ ∈
          scheme.sites _ [] (scheme.after begun (input.take _)) :=
        mem_sites_of_comes closed comes (List.mem_singleton_self _)
      exact guards _ _ defined admitsTop _ here _ site target rfl admits

/-- A path comes to a token at a site of a rule that may be open. -/
theorem exists_site_of_stands (closed : scheme.Closed grammar)
    (guards : scheme.Guards grammar admitted enters) (starts : begun ∈ enters first)
    (opened : ∀ frame ∈ stack, admitted frame.rule)
    (stands : Stands grammar input first stack (.token kind) follow place) :
    ∃ rule body entered, grammar rule = some body ∧ admitted rule ∧ entered ∈ enters rule ∧
      ⟨.token kind, follow, scheme.after begun (input.take place)⟩ ∈
        scheme.sites body [] entered := by
  cases inside_of_stands stands with
  | within defined entered comes =>
    obtain ⟨admitsTop, below⟩ := List.forall_mem_cons.mp opened
    exact ⟨_, _, _, defined, admitsTop,
      phase_of_stands closed guards starts below admitsTop entered,
      mem_sites_of_comes closed comes (List.mem_singleton_self _)⟩

/-! ## One phase -/

/-- All texts in one phase. Its sites are the tokens and rules of a right-hand side. -/
def single : Scheme Unit where
  all := [()]
  listed _ := List.mem_singleton_self _
  advance _ _ := ()
  ends _ _ := [()]

theorem single_closed : single.Closed grammar := fun _ _ _ _ _ _ => List.mem_singleton_self _

theorem mem_single_sites (comes : Comes grammar input whole entry (.token kind) follow place) :
    ⟨.token kind, follow, ()⟩ ∈ single.sites whole [] () :=
  @mem_sites_of_comes Unit single _ _ _ () ⟨.token kind, follow, ()⟩ _ _ _ _ _ single_closed comes
    (List.mem_singleton_self _)

end Scheme

end CypherAssist.Grammar
