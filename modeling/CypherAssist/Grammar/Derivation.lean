import CypherAssist.Grammar.Rule

/-! Derivations and the outcomes of matching. Matching one element at one position has at most one
outcome for each place where it may end; the outcomes are kept in the order in which they were
found, and the first one found for an end stays. -/
namespace CypherAssist.Grammar

/-- Where a derivation ends: in front of a position, or cut short by the end of the input. -/
inductive Reach where
  | cut
  | upTo (position : Nat)
  deriving DecidableEq, Repr

/-- A derivation names tokens by their positions. A node is partial when the input ended inside
it. -/
inductive Derivation where
  | token (position : Nat)
  | node (rule : Rule) (isPartial : Bool) (children : List Derivation)
  deriving Repr, Inhabited

/-- What matching found, by the place where it ends. -/
abbrev Outcomes (α : Type) := List (Reach × α)

namespace Outcomes
variable {α : Type}

/-- Whether some outcome ends there. -/
def reaches (outcomes : Outcomes α) (reach : Reach) : Bool :=
  outcomes.any fun outcome => outcome.1 = reach

/-- The outcome that ends there. -/
def at? (outcomes : Outcomes α) (reach : Reach) : Option α :=
  (outcomes.find? fun outcome => outcome.1 = reach).map (·.2)

/-- Adds the later outcomes that end where no earlier one does. -/
def merge (earlier later : Outcomes α) : Outcomes α :=
  earlier ++ later.filter fun outcome => !earlier.reaches outcome.1

/-- Merging keeps what was found first and adds the ends not seen before. -/
theorem reaches_merge (earlier later : Outcomes α) (reach : Reach) :
    (earlier.merge later).reaches reach = (earlier.reaches reach || later.reaches reach) := by
  simp only [reaches, merge, List.any_append, List.any_filter]
  by_cases seen : (earlier.any fun outcome => outcome.1 = reach) = true
  · simp [seen]
  · simp only [Bool.not_eq_true] at seen
    rw [seen, Bool.false_or, Bool.false_or, Bool.eq_iff_iff]
    simp only [List.any_eq_true, Bool.and_eq_true, Bool.not_eq_true', decide_eq_true_eq]
    constructor
    · rintro ⟨outcome, member, _, rfl⟩
      exact ⟨outcome, member, rfl⟩
    · rintro ⟨outcome, member, rfl⟩
      exact ⟨outcome, member, seen, rfl⟩

end Outcomes

end CypherAssist.Grammar
