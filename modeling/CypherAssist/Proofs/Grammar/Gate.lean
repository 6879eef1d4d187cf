import CypherAssist.Proofs.Grammar.Forestalled
import CypherAssist.Proofs.Grammar.Shape

/-! One way to the caret. A token that only one rule has, and no rule ends with, leaves one way on:
behind it every path is in that rule, entered at the token. A walk goes there once, so whatever it
reports, it reports on that visit and under the rules that are open then. -/
namespace CypherAssist.Grammar
open Token

/-! ## The last token of a word -/

namespace Element

mutual

/-- Whether a word of an element may end with a token of this kind that the element itself has. -/
def mayEnd (vanishing : Rule → Bool) (kind : Kind) : Element → Bool
  | .token other => other = kind
  | .reference _ => false
  | .sequence items => mayEndInOrder vanishing kind items
  | .choice options => mayEndAny vanishing kind options
  | .optional item => item.mayEnd vanishing kind
  | .repeated item => item.mayEnd vanishing kind

/-- Whether a word of elements one after the other may end so. -/
def mayEndInOrder (vanishing : Rule → Bool) (kind : Kind) : List Element → Bool
  | [] => false
  | item :: rest =>
    mayEndInOrder vanishing kind rest || (allVanish vanishing rest && item.mayEnd vanishing kind)

/-- Whether a word of some option may end so. -/
def mayEndAny (vanishing : Rule → Bool) (kind : Kind) : List Element → Bool
  | [] => false
  | option :: rest => option.mayEnd vanishing kind || mayEndAny vanishing kind rest

end

end Element

variable {grammar : Grammar} {caret : Caret} {first gate rule : Rule} {input : List Kind}
  {vanishing : Rule → Bool} {kind : Kind} {origin place entry : Nat}
  {element whole : Element} {stack outer : List Frame} {follow : List Element}

theorem mayEndAny_of_mem (member : option ∈ options) (ends : option.mayEnd vanishing kind) :
    Element.mayEndAny vanishing kind options := by
  induction options with
  | nil => cases member
  | cons other rest ih =>
    rw [Element.mayEndAny, Bool.or_eq_true]
    rcases List.mem_cons.mp member with rfl | member
    · exact .inl ends
    · exact .inr (ih member)

/-- No rule has a token of this kind at the end of its right-hand side. -/
def Unending (grammar : Grammar) (vanishing : Rule → Bool) (kind : Kind) : Prop :=
  ∀ rule element, grammar rule = some element → ¬ element.mayEnd vanishing kind

/-- Where no rule ends with the token, only an element that has it itself does. -/
theorem mayEnd_of_spans (closed : Vanishing grammar vanishing)
    (unending : Unending grammar vanishing kind)
    (spans : Spans grammar input element origin place) (moved : origin < place)
    (last : input[place - 1]? = some kind) : element.mayEnd vanishing kind := by
  induction spans with
  | token found =>
    rw [Nat.add_sub_cancel, found] at last
    simpa [Element.mayEnd] using last
  | reference defined _ ih => exact absurd (ih moved last) (unending _ _ defined)
  | empty | skipped | done => exact absurd moved (Nat.lt_irrefl _)
  | @sequence item origin middle rest target head tail ihHead ihTail =>
    rw [Element.mayEnd, Element.mayEndInOrder, Bool.or_eq_true, Bool.and_eq_true]
    rcases spans_le tail with rfl | ⟨moved, -⟩
    · exact .inr ⟨canVanish_of_word closed (nullable_of_spans tail) rfl, ihHead moved last⟩
    · exact .inl (ihTail moved last)
  | choice member _ ih => exact mayEndAny_of_mem member (ih moved last)
  | taken _ ih => exact ih moved last
  | @again item origin middle target head tail ihHead ihTail =>
    rcases spans_le tail with rfl | ⟨moved, -⟩
    · exact ihHead moved last
    · exact ihTail moved last

theorem mem_subelements_of_mayEnd (ends : element.mayEnd vanishing kind) :
    .token kind ∈ element.subelements := by
  induction element using Element.induction with
  | token other =>
    rw [Element.mayEnd, decide_eq_true_eq] at ends
    exact ends ▸ Element.mem_subelements_self _
  | reference => cases ends
  | sequence items ih =>
    refine List.mem_cons_of_mem _ (Element.mem_subelementsOfAll.mpr ?_)
    induction items with
    | nil => cases ends
    | cons item rest inner =>
      rw [Element.mayEnd, Element.mayEndInOrder, Bool.or_eq_true, Bool.and_eq_true] at ends
      rcases ends with later | ⟨-, here⟩
      · obtain ⟨part, member, found⟩ :=
          inner (fun part member => ih part (List.mem_cons_of_mem _ member)) later
        exact ⟨part, List.mem_cons_of_mem _ member, found⟩
      · exact ⟨item, List.mem_cons_self .., ih item (List.mem_cons_self ..) here⟩
  | choice options ih =>
    refine List.mem_cons_of_mem _ (Element.mem_subelementsOfAll.mpr ?_)
    induction options with
    | nil => cases ends
    | cons option rest inner =>
      rw [Element.mayEnd, Element.mayEndAny, Bool.or_eq_true] at ends
      rcases ends with here | later
      · exact ⟨option, List.mem_cons_self .., ih option (List.mem_cons_self ..) here⟩
      · obtain ⟨part, member, found⟩ :=
          inner (fun part member => ih part (List.mem_cons_of_mem _ member)) later
        exact ⟨part, List.mem_cons_of_mem _ member, found⟩
  | optional item ih | repeated item ih => exact List.mem_cons_of_mem _ (ih ends)

/-! ## Parts that the token is read before -/

theorem subelements_subset {items : List Element} (member : item ∈ items) :
    item.subelements ⊆ Element.subelementsOfAll items :=
  fun _ inside => Element.mem_subelementsOfAll.mpr ⟨item, member, inside⟩

/-- The parts of a part are parts of the whole. -/
theorem subelements_of_comes (comes : Comes grammar input whole origin element follow place) :
    element.subelements ⊆ whole.subelements := by
  induction comes with
  | whole => exact List.Subset.refl _
  | part _ _ ih =>
    exact fun _ inside => ih (List.mem_cons_of_mem _ (subelements_subset (by simp) inside))
  | option _ member ih =>
    exact fun _ inside => ih (List.mem_cons_of_mem _ (subelements_subset member inside))
  | optional _ ih | repeated _ _ ih => exact fun _ inside => ih (List.mem_cons_of_mem _ inside)

theorem le_of_comes (comes : Comes grammar input whole origin element follow place) :
    origin ≤ place := by
  induction comes with
  | whole => exact Nat.le_refl _
  | part _ passed ih | repeated _ passed ih =>
    have ordered := spans_le passed
    omega
  | option _ _ ih | optional _ ih => exact ih

/-- A part that a path comes to right behind the token belongs to an element that has the token. -/
theorem mem_subelements_of_comes (closed : Vanishing grammar vanishing)
    (unending : Unending grammar vanishing kind)
    (comes : Comes grammar input whole origin element follow place) (moved : origin < place)
    (last : input[place - 1]? = some kind) : .token kind ∈ whole.subelements := by
  induction comes with
  | whole => exact absurd moved (Nat.lt_irrefl _)
  | @part before item rest follow entry place outside passed ih =>
    rcases spans_le passed with rfl | ⟨further, -⟩
    · exact ih moved last
    · have found := mem_subelements_of_mayEnd (mayEnd_of_spans closed unending passed further last)
      rcases List.mem_cons.mp found with same | within
      · cases same
      · obtain ⟨part, member, inside⟩ := Element.mem_subelementsOfAll.mp within
        exact subelements_of_comes outside (List.mem_cons_of_mem _
          (Element.mem_subelementsOfAll.mpr ⟨part, List.mem_append_left _ member, inside⟩))
  | option _ _ ih | optional _ ih => exact ih moved last
  | repeated outside passed ih =>
    rcases spans_le passed with rfl | ⟨further, -⟩
    · exact ih moved last
    · exact subelements_of_comes outside
        (mem_subelements_of_mayEnd (mayEnd_of_spans closed unending passed further last))

/-! ## The only rule there -/

/-- Every path to the caret that enters no preferred rule there goes into the gate at its entry, and
into other rules at the caret only. -/
structure Gated (grammar : Grammar) (caret : Caret) (first gate : Rule) (entry : Nat) : Prop where
  early : entry < caret.position
  passed : ∀ stack element follow, caret.Outside stack →
    Stands grammar caret.before first stack element follow caret.position →
      ∃ inner outer behind, stack = inner ++ ⟨gate, entry⟩ :: outer ∧
        (∀ frame ∈ inner, frame.start = caret.position) ∧
        Stands grammar caret.before first outer (.reference gate) behind entry

theorem getElem?_of_last (last : caret.before.getLast? = some kind) :
    caret.before[caret.position - 1]? = some kind := by
  rwa [List.getLast?_eq_getElem?, caret.length_before] at last

/-- Right behind a token that only the gate has, with which no rule ends, and behind which the gate
does not go on for long, every path is in the gate. -/
theorem gated_of_last (closed : Vanishing grammar vanishing)
    (unending : Unending grammar vanishing kind)
    (only : ∀ rule element, grammar rule = some element →
      .token kind ∈ element.subelements → rule = gate)
    (brief : ∀ body origin element follow place, grammar gate = some body →
      Comes grammar caret.before body origin element follow place → place ≤ origin + 1)
    (last : caret.before.getLast? = some kind) :
    Gated grammar caret first gate (caret.position - 1) := by
  have sign := getElem?_of_last last
  have present : 0 < caret.position := by
    rw [← caret.length_before]
    exact List.length_pos_of_ne_nil fun nothing => by simp [nothing] at last
  refine ⟨by omega, fun stack => ?_⟩
  induction stack with
  | nil =>
    intro element follow _ stands
    generalize reached : caret.position = position at stands
    cases inside_of_stands stands
    omega
  | cons top outer ih =>
    intro element follow outside stands
    cases inside_of_stands stands with
    | @within rule body _ behind _ _ _ origin defined entered comes =>
      by_cases here : origin = caret.position
      · subst here
        obtain ⟨inner, below, others, rfl, clear, stands⟩ :=
          ih _ _ (List.forall_mem_cons.mp outside).2 entered
        exact ⟨_ :: inner, below, others, rfl, List.forall_mem_cons.mpr ⟨rfl, clear⟩, stands⟩
      · have ordered := le_of_comes comes
        have found := mem_subelements_of_comes closed unending comes (by omega) sign
        cases only rule body defined found
        have near := brief body origin _ _ _ defined comes
        obtain rfl : origin = caret.position - 1 := by omega
        exact ⟨[], outer, behind, rfl, List.forall_mem_nil _, entered⟩

/-! ## Walks -/

/-- A token is reported as itself where no preferred rule is open, and else by the innermost one. -/
theorem rules_report (state : WalkState) (caret : Caret) (kind : Kind) (stack : List Frame)
    (follow : List Element) :
    caret.Clear stack ∧
      (state.report caret kind stack follow).candidates.rules = state.candidates.rules ∨
    ∃ inner frame outer, stack = inner ++ frame :: outer ∧ caret.Clear inner ∧
      caret.prefers frame.rule ∧ (state.report caret kind stack follow).candidates =
        state.candidates.addRule (caret.ruleAt frame.rule frame.start outer) := by
  unfold WalkState.report
  rcases clear_or_split caret stack with
    ⟨none, clear⟩ | ⟨inner, frame, outer, same, clear, preferred, split⟩
  · rw [none]
    refine .inl ⟨clear, ?_⟩
    simp only
    split
    · rfl
    · unfold Candidates.addToken
      split <;> rfl
  · rw [split]
    exact .inr ⟨inner, frame, outer, same, clear, preferred, rfl⟩

/-- Nothing is reported until the gate is walked, and afterwards the verdict holds. -/
def Waits (gate : Rule) (entry : Nat) (verdict : Candidates → Prop) (state : WalkState) : Prop :=
  state.recorded[(gate, entry)]? = none ∧ state.candidates = {} ∨
    (state.recorded[(gate, entry)]?).isSome ∧ verdict state.candidates

/-- The first visit of the gate, with nothing reported before, ends with the verdict. -/
def Decides (grammar : Grammar) (caret : Caret) (first gate : Rule) (entry : Nat)
    (verdict : Candidates → Prop) : Prop :=
  ∀ depth outer body follow state reached after, caret.Outside outer →
    Stands grammar caret.before first outer (.reference gate) follow entry →
    grammar gate = some body → state.candidates = {} →
    body.walk caret (walkRule grammar caret depth) entry (⟨gate, entry⟩ :: outer) [] state =
      .ok (reached, after) → verdict after.candidates

variable {verdict : Candidates → Prop}

theorem waits_record {state : WalkState} (waits : Waits gate entry verdict state)
    (elsewhere : (rule, position) ≠ (gate, entry)) (ends : List Nat) :
    Waits gate entry verdict (state.record rule position ends) := by
  unfold Waits at waits ⊢
  rwa [WalkState.getElem?_record, if_neg elsewhere]

/-- A walk in front of the caret waits for the gate. -/
theorem walkRule_waits (gated : Gated grammar caret first gate entry)
    (decides : Decides grammar caret first gate entry verdict) (depth : Nat) (rule : Rule)
    (position : Nat) (stack : List Frame) (follow : List Element) (outside : caret.Outside stack)
    (stands : Stands grammar caret.before first stack (.reference rule) follow position)
    (early : position < caret.position) :
    Keeps (fun state => Honest grammar caret first state ∧ Waits gate entry verdict state)
      (walkRule grammar caret depth rule position stack)
      (Spans grammar caret.before (.reference rule) position) := by
  induction depth generalizing rule position stack follow with
  | zero => exact keeps_zero
  | succ depth ih =>
    have enters : ¬ (position = caret.position && caret.prefers rule) := by
      simp [Nat.ne_of_lt early]
    have deeper : caret.Outside (⟨rule, position⟩ :: stack) :=
      List.forall_mem_cons.mpr ⟨enters, outside⟩
    by_cases elsewhere : (rule, position) = (gate, entry)
    · cases elsewhere
      rintro state reached after ⟨honest, waits⟩ ran
      have backs := walkRule_backs (depth + 1) gate entry stack follow outside stands
      obtain ⟨kept, inside⟩ := backs state reached after honest ran
      refine ⟨⟨kept, ?_⟩, inside⟩
      rw [walkRule_apply, if_neg enters] at ran
      split at ran
      · cases ran
        exact waits
      · rename_i fresh
        split at ran
        · cases ran
        · rename_i body defined
          obtain ⟨⟨ends, closed⟩, passed, same⟩ := exists_of_map_eq_ok ran
          cases same
          have untouched := (waits.resolve_right fun visited => by simp [fresh] at visited).2
          refine .inr ⟨by simp [WalkState.getElem?_record], ?_⟩
          exact decides depth stack body follow (state.record gate entry []) ends closed outside
            stands defined untouched passed
    · refine keeps_rule (fun _ _ here => absurd here (Nat.ne_of_lt early))
        (fun state ends kept => kept.1.ends rule position ends)
        (fun state ends kept inside =>
          ⟨honest_record kept.1 inside, waits_record kept.2 elsewhere ends⟩)
        fun body enters defined => ?_
      have here {part : Element} {others : List Element} {place : Nat}
          (comes : Comes grammar caret.before body position part others place) :
          Stands grammar caret.before first (⟨rule, position⟩ :: stack) part others place := by
        simpa using stands_within (.enter stands defined) comes
      -- a part at the caret would have the gate open, which is elsewhere
      have apart {part : Element} {others : List Element} {place : Nat}
          (comes : Comes grammar caret.before body position part others place) :
          place ≠ caret.position := by
        rintro rfl
        obtain ⟨inner, outer, _, split, clear, -⟩ := gated.passed _ _ _ deeper (here comes)
        cases inner with
        | nil => cases split; exact elsewhere rfl
        | cons top inner =>
          cases split
          exact Nat.ne_of_lt early (clear _ (List.mem_cons_self ..))
      refine keeps_mono (walk_within ?_ ?_ body position [] .whole) fun stop spans =>
        .reference defined spans
      · exact fun kind others state comes => absurd rfl (apart comes)
      · intro target place others comes
        have near := place_le_of_comes comes (by rw [caret.length_before]; omega)
        rw [caret.length_before] at near
        exact ih target place _ _ deeper (here comes) (Nat.lt_of_le_of_ne near (apart comes))

/-- What is collected behind a gate is what its one visit decides, if there is anything. -/
theorem collect_gated {start : Rule} {stream : List Token} {index : Nat} {preferred : List Rule}
    {ignored : List Kind} {depth : Nat} {candidates : Candidates}
    (gated : Gated grammar ⟨(tokensUntil index stream).toArray, preferred, ignored⟩ start gate
      entry)
    (decides : Decides grammar ⟨(tokensUntil index stream).toArray, preferred, ignored⟩ start gate
      entry verdict)
    (ran : collect grammar start stream index preferred ignored depth = .ok candidates) :
    candidates = {} ∨ verdict candidates := by
  obtain ⟨-, rfl⟩ | ⟨ends, state, walked, rfl⟩ := walk_of_collect ran
  · exact .inl rfl
  have begun : Honest grammar ⟨(tokensUntil index stream).toArray, preferred, ignored⟩ start {} :=
    { ends := fun _ _ _ present => by simp at present
      backed := ⟨List.forall_mem_nil _, List.forall_mem_nil _⟩ }
  have waits := walkRule_waits gated decides depth start 0 [] [] (List.forall_mem_nil _) .start
    (Nat.zero_lt_of_lt gated.early) {} _ _ ⟨begun, .inl ⟨by simp, rfl⟩⟩ walked
  exact waits.1.2.imp And.right And.right

end CypherAssist.Grammar
