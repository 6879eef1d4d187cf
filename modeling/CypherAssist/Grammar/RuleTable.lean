import CypherAssist.Grammar.Rule
import Std.Data.TreeMap

/-! Tables of what is known of rules at positions. The entries are kept in order, so that looking
one up takes few steps, also where a run is only followed in thought. -/
namespace CypherAssist.Grammar

/-- Rules at positions come in the order of the rules, then of the positions. -/
def comparePlaces : Rule × Nat → Rule × Nat → Ordering :=
  compareLex (compareOn fun place => place.1.ctorIdx) (compareOn fun place => place.2)

instance : Std.TransCmp comparePlaces :=
  inferInstanceAs (Std.TransCmp (compareLex (compareOn _) (compareOn _)))

instance : Std.LawfulEqCmp comparePlaces where
  eq_of_compare {one two} same := by
    obtain ⟨first, second⟩ := Ordering.then_eq_eq.mp same
    have rule := congrArg Rule.ofNat (Nat.compare_eq_eq.mp first)
    rw [Rule.ofNat_ctorIdx, Rule.ofNat_ctorIdx] at rule
    exact Prod.ext rule (Nat.compare_eq_eq.mp second)

/-- A table with at most one entry for a rule at a position. -/
abbrev RuleTable (α : Type) := Std.TreeMap (Rule × Nat) α comparePlaces

theorem RuleTable.getElem?_insert {α : Type} (table : RuleTable α) (place other : Rule × Nat)
    (value : α) :
    (table.insert place value)[other]? = if place = other then some value else table[other]? := by
  simp only [Std.TreeMap.getElem?_insert, Std.LawfulEqCmp.compare_eq_iff_eq]

end CypherAssist.Grammar
