import CypherAssist.Proofs.Grammar.Invariant

/-! Paths within one right-hand side. A walk through the element of a rule stands in front of its
parts, each with the elements behind it, wherever the parts before it end; what it keeps may depend
on where it stands. -/
namespace CypherAssist.Grammar
open Token

/-- A path through the whole element, begun at its origin, comes to a part of it at a position: the
parts before it end there. Behind the part the element goes on with those that follow. -/
inductive Comes (grammar : Grammar) (input : List Kind) (whole : Element) (origin : Nat) :
    Element → List Element → Nat → Prop where
  | whole : Comes grammar input whole origin whole [] origin
  | part (outside : Comes grammar input whole origin (.sequence (before ++ item :: rest)) follow
      entry) (passed : Spans grammar input (.sequence before) entry position) :
    Comes grammar input whole origin item (rest ++ follow) position
  | option (outside : Comes grammar input whole origin (.choice options) follow position)
    (member : option ∈ options) : Comes grammar input whole origin option follow position
  | optional (outside : Comes grammar input whole origin (.optional item) follow position) :
    Comes grammar input whole origin item follow position
  | repeated (outside : Comes grammar input whole origin (.repeated item) follow entry)
    (passed : Spans grammar input (.repeated item) entry position) :
    Comes grammar input whole origin item (.repeated item :: follow) position

variable {grammar : Grammar} {input : List Kind} {caret : Caret} {stack : List Frame}
  {follow : List Element} {whole : Element} {origin : Nat}
  {descend : Rule → Nat → List Frame → WalkM (List Nat)} {holds : WalkState → Prop}

/-- A sequence passed and one more element behind it are a longer sequence passed. -/
theorem spans_sequence_snoc {before : List Element} {entry middle stop : Nat}
    (passed : Spans grammar input (.sequence before) entry middle)
    (last : Spans grammar input item middle stop) :
    Spans grammar input (.sequence (before ++ [item])) entry stop := by
  induction before generalizing entry with
  | nil =>
    cases passed
    exact .sequence last .empty
  | cons part rest ih =>
    cases passed with
    | sequence head tail => exact .sequence head (ih tail)

private theorem walkInOrder_within {before items : List Element} {entry : Nat}
    (comes : Comes grammar caret.before whole origin (.sequence (before ++ items)) follow entry)
    (each : ∀ item ∈ items, ∀ position rest,
      Comes grammar caret.before whole origin item rest position →
        Keeps holds (item.walk caret descend position stack rest)
          (Spans grammar caret.before item position))
    {positions : List Nat}
    (passed : ∀ position ∈ positions,
      Spans grammar caret.before (.sequence before) entry position) :
    Keeps holds (Element.walkInOrder caret descend items positions stack follow)
      (Spans grammar caret.before (.sequence (before ++ items)) entry) := by
  induction items generalizing before positions with
  | nil =>
    rw [List.append_nil]
    exact keeps_pure passed
  | cons item rest ih =>
    have longer : before ++ item :: rest = (before ++ [item]) ++ rest := by simp
    have here (position) (member : position ∈ positions) :
        Keeps holds (item.walk caret descend position stack (rest ++ follow))
          (Spans grammar caret.before (.sequence (before ++ [item])) entry) :=
      keeps_mono (each item (by simp) position _ (.part comes (passed position member)))
        fun stop spans => spans_sequence_snoc (passed position member) spans
    rw [Element.walkInOrder]
    refine keeps_bind (keeps_each positions here (List.forall_mem_nil _)) fun reached inside => ?_
    rw [longer] at comes ⊢
    exact ih comes (fun other member => each other (List.mem_cons_of_mem _ member)) inside

/-- What the reports and the rules entered keep, each where a path comes to it, the whole keeps; and
it arrives at ends of its words if the rules do. -/
theorem walk_within
    (reports : ∀ kind follow state,
      Comes grammar caret.before whole origin (.token kind) follow caret.position →
        holds state → holds (state.report caret kind stack follow))
    (calls : ∀ rule position follow,
      Comes grammar caret.before whole origin (.reference rule) follow position →
        Keeps holds (descend rule position stack)
          (Spans grammar caret.before (.reference rule) position))
    (element : Element) (position : Nat) (follow : List Element)
    (comes : Comes grammar caret.before whole origin element follow position) :
    Keeps holds (element.walk caret descend position stack follow)
      (Spans grammar caret.before element position) := by
  induction element using Element.induction generalizing position follow with
  | token kind =>
    rw [Element.walk]
    split
    · rename_i here
      subst here
      intro state reached after kept ran
      cases ran
      exact ⟨reports kind follow state comes kept, List.forall_mem_nil _⟩
    · rename_i elsewhere
      split
      · rename_i found
        refine keeps_pure fun stop member => ?_
        rw [List.mem_singleton.mp member]
        refine .token ?_
        have inside : position < caret.position := by
          obtain ⟨token, present, -⟩ := Option.map_eq_some_iff.mp found
          have bound := (Array.getElem?_eq_some_iff.mp present).1
          unfold Caret.position at elsewhere ⊢
          omega
        rw [caret.getElem?_before inside, found]
      · exact keeps_pure (List.forall_mem_nil _)
  | reference target => exact calls target position follow comes
  | sequence items ih =>
    rw [Element.walk]
    have begun (place) (member : place ∈ [position]) :
        Spans grammar caret.before (.sequence []) position place := by
      rw [List.mem_singleton.mp member]
      exact .empty
    exact walkInOrder_within comes (fun item member => ih item member) begun
  | choice options ih =>
    rw [Element.walk]
    refine walkAny_keeps (fun option member => ?_) (List.forall_mem_nil _)
    exact keeps_mono (ih option member position follow (.option comes member)) fun stop spans =>
      .choice member spans
  | optional item ih =>
    rw [Element.walk]
    refine keeps_union (keeps_mono (ih position follow (.optional comes)) fun stop spans =>
      .taken spans) fun stop member => ?_
    rw [List.mem_singleton.mp member]
    exact .skipped
  | repeated item ih =>
    rw [Element.walk]
    have begun (stop) (member : stop ∈ [position]) :
        Spans grammar caret.before (.repeated item) position stop := by
      rw [List.mem_singleton.mp member]
      exact .done
    refine keeps_reachAll (fun middle passed => ?_) _ begun begun
    exact keeps_mono (ih middle _ (.repeated comes passed)) fun stop spans =>
      spans_snoc passed spans

end CypherAssist.Grammar
