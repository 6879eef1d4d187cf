import CypherAssist.Grammar.Derivation
import CypherAssist.Proofs.Grammar.Path

/-! Genuine derivations. `Derives` says what a list of derivations must look like to stand for an
element between two places of a text, or up to the end of a text that breaks off inside it. Which
tokens such a list covers, and that it is backed by a path, follows from this alone. -/
namespace CypherAssist.Grammar
open Token

/-- The derivations stand for the element from a position to a place. The text breaks off where a
token is asked for behind its end; every node that is open there is partial. -/
inductive Derives (grammar : Grammar) (input : List Kind) :
    Element → Nat → Reach → List Derivation → Prop where
  | token {kind : Kind} (found : input[position]? = some kind) :
    Derives grammar input (.token kind) position (.upTo (position + 1)) [.token position]
  | brokenOff {kind : Kind} (ended : input[position]? = none) :
    Derives grammar input (.token kind) position .cut []
  | reference (defined : grammar rule = some element)
    (body : Derives grammar input element origin reach children) :
    Derives grammar input (.reference rule) origin reach [.node rule (reach = .cut) children]
  | empty : Derives grammar input (.sequence []) position (.upTo position) []
  | sequence (first : Derives grammar input item origin (.upTo middle) children)
    (second : Derives grammar input (.sequence rest) middle reach more) :
    Derives grammar input (.sequence (item :: rest)) origin reach (children ++ more)
  | sequenceCut (first : Derives grammar input item origin .cut children) :
    Derives grammar input (.sequence (item :: rest)) origin .cut children
  | choice (member : option ∈ options)
    (chosen : Derives grammar input option origin reach children) :
    Derives grammar input (.choice options) origin reach children
  | skipped : Derives grammar input (.optional item) position (.upTo position) []
  | taken (inside : Derives grammar input item origin reach children) :
    Derives grammar input (.optional item) origin reach children
  | done : Derives grammar input (.repeated item) position (.upTo position) []
  | again (first : Derives grammar input item origin (.upTo middle) children)
    (second : Derives grammar input (.repeated item) middle reach more) :
    Derives grammar input (.repeated item) origin reach (children ++ more)
  | againCut (first : Derives grammar input item origin .cut children) :
    Derives grammar input (.repeated item) origin .cut children

variable {grammar : Grammar} {input : List Kind} {start : Nat}

/-- A repetition may be extended at its end as well as at its start. -/
theorem derives_repeated_snoc
    (before : Derives grammar input (.repeated item) start (.upTo middle) children)
    (last : Derives grammar input item middle reach more) :
    Derives grammar input (.repeated item) start reach (children ++ more) := by
  generalize same : Element.repeated item = element at before
  generalize place : Reach.upTo middle = there at before
  induction before with
  | done =>
    cases same
    cases place
    cases reach with
    | cut => exact .againCut last
    | upTo => simpa using Derives.again last .done
  | again first _ _ ih =>
    cases same
    rw [List.append_assoc]
    exact .again first (ih rfl place)
  | againCut => cases place
  | _ => cases same

/-- A derivation up to a position follows a path there. -/
theorem spans_of_derives {stop : Nat}
    (derives : Derives grammar input element start (.upTo stop) children) :
    Spans grammar input element start stop := by
  generalize place : Reach.upTo stop = reach at derives
  induction derives generalizing stop with
  | token found => cases place; exact .token found
  | reference defined _ ih => exact .reference defined (ih place)
  | empty => cases place; exact .empty
  | sequence _ _ ihFirst ihSecond => exact .sequence (ihFirst rfl) (ihSecond place)
  | choice member _ ih => exact .choice member (ih place)
  | skipped => cases place; exact .skipped
  | taken _ ih => exact .taken (ih place)
  | done => cases place; exact .done
  | again _ _ ihFirst ihSecond => exact .again (ihFirst rfl) (ihSecond place)
  | brokenOff | sequenceCut | againCut => cases place

/-- A derivation that breaks off follows a path to a token behind the end of the text. -/
theorem meets_of_derives_cut (derives : Derives grammar input element start .cut children) :
    ∃ place kind, Meets grammar anyRule input element start place kind ∧ input[place]? = none := by
  generalize cut : Reach.cut = reach at derives
  induction derives with
  | brokenOff ended => exact ⟨_, _, .token, ended⟩
  | reference defined _ ih =>
    obtain ⟨place, kind, meets, ended⟩ := ih cut
    exact ⟨place, kind, .reference trivial defined meets, ended⟩
  | sequence first _ _ ih =>
    obtain ⟨place, kind, meets, ended⟩ := ih cut
    exact ⟨place, kind, .tail (spans_of_derives first) meets, ended⟩
  | sequenceCut _ ih =>
    obtain ⟨place, kind, meets, ended⟩ := ih cut
    exact ⟨place, kind, .head meets, ended⟩
  | choice member _ ih =>
    obtain ⟨place, kind, meets, ended⟩ := ih cut
    exact ⟨place, kind, .choice member meets, ended⟩
  | taken _ ih =>
    obtain ⟨place, kind, meets, ended⟩ := ih cut
    exact ⟨place, kind, .optional meets, ended⟩
  | again first _ _ ih =>
    obtain ⟨place, kind, meets, ended⟩ := ih cut
    exact ⟨place, kind, .later (spans_of_derives first) meets, ended⟩
  | againCut _ ih =>
    obtain ⟨place, kind, meets, ended⟩ := ih cut
    exact ⟨place, kind, .first meets, ended⟩
  | token | empty | skipped | done => cases cut

/-! ## The tokens covered -/

namespace Derivation

mutual

/-- The positions of the tokens in a derivation, from left to right. -/
def leaves : Derivation → List Nat
  | .token position => [position]
  | .node _ _ children => leavesOfAll children

/-- The positions of the tokens in several derivations. -/
def leavesOfAll : List Derivation → List Nat
  | [] => []
  | derivation :: rest => derivation.leaves ++ leavesOfAll rest

end

@[simp] theorem leavesOfAll_append (first second : List Derivation) :
    leavesOfAll (first ++ second) = leavesOfAll first ++ leavesOfAll second := by
  induction first with
  | nil => rfl
  | cons derivation rest ih => simp [leavesOfAll, ih, List.append_assoc]

end Derivation

/-- Where a derivation stops covering tokens. -/
def Reach.stop (size : Nat) : Reach → Nat
  | .cut => size
  | .upTo position => position

private theorem range'_append_range' {first middle last : Nat} (before : first ≤ middle)
    (behind : middle ≤ last) :
    List.range' first (middle - first) ++ List.range' middle (last - middle) =
      List.range' first (last - first) := by
  have joined := @List.range'_append_1 first (middle - first) (last - middle)
  rwa [show first + (middle - first) = middle by omega,
    show middle - first + (last - middle) = last - first by omega] at joined

/-- A derivation covers every token from its start to its end once and in order; one that breaks
off covers the text to its end. -/
theorem leaves_of_derives (derives : Derives grammar input element start reach children)
    (inside : start ≤ input.length) :
    start ≤ reach.stop input.length ∧ reach.stop input.length ≤ input.length ∧
      Derivation.leavesOfAll children = List.range' start (reach.stop input.length - start) := by
  induction derives with
  | @token position kind found =>
    have within := (List.getElem?_eq_some_iff.mp found).1
    refine ⟨Nat.le_succ _, within, ?_⟩
    simp [Reach.stop, Derivation.leavesOfAll, Derivation.leaves]
  | brokenOff ended =>
    have beyond := List.getElem?_eq_none_iff.mp ended
    have atEnd : input.length - _ = 0 := Nat.sub_eq_zero_of_le beyond
    exact ⟨inside, Nat.le_refl _, by simp [Reach.stop, Derivation.leavesOfAll, atEnd]⟩
  | reference _ _ ih =>
    obtain ⟨ordered, within, covered⟩ := ih inside
    exact ⟨ordered, within, by simpa [Derivation.leavesOfAll, Derivation.leaves] using covered⟩
  | empty | skipped | done =>
    exact ⟨Nat.le_refl _, inside, by simp [Reach.stop, Derivation.leavesOfAll]⟩
  | sequence _ _ ihFirst ihSecond | again _ _ ihFirst ihSecond =>
    obtain ⟨ordered, within, covered⟩ := ihFirst inside
    obtain ⟨orderedRest, withinRest, coveredRest⟩ := ihSecond within
    refine ⟨Nat.le_trans ordered orderedRest, withinRest, ?_⟩
    rw [Derivation.leavesOfAll_append, covered, coveredRest]
    exact range'_append_range' ordered orderedRest
  | sequenceCut _ ih | choice _ _ ih | taken _ ih | againCut _ ih => exact ih inside

end CypherAssist.Grammar
