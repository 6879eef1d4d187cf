import CypherAssist.Proofs.Grammar.Language
import Mathlib.Data.Set.Card
import Mathlib.Logic.Relation

/-! Left recursion. A rule opens another when it can enter it before it has read a token. Where no
rule comes back to itself in this way, a rule and a position have only finitely many rules and
positions below them, and `burden` counts how many levels there can be. -/
namespace CypherAssist.Grammar
open Token Relation

/-- The element can enter the rule before it has read any token. -/
inductive Opens (grammar : Grammar) : Element → Rule → Prop where
  | reference : Opens grammar (.reference rule) rule
  | head (inside : Opens grammar item rule) : Opens grammar (.sequence (item :: rest)) rule
  | tail (nullable : Word grammar item []) (inside : Opens grammar (.sequence rest) rule) :
    Opens grammar (.sequence (item :: rest)) rule
  | choice (member : option ∈ options) (inside : Opens grammar option rule) :
    Opens grammar (.choice options) rule
  | optional (inside : Opens grammar item rule) : Opens grammar (.optional item) rule
  | repeated (inside : Opens grammar item rule) : Opens grammar (.repeated item) rule

/-- The first rule can enter the second before it has read any token. -/
def StartsWith (grammar : Grammar) (rule target : Rule) : Prop :=
  ∃ element, grammar rule = some element ∧ Opens grammar element target

/-- No rule is entered again before a token is read. -/
def LeftRecursionFree (grammar : Grammar) : Prop :=
  ∀ rule, ¬ TransGen (StartsWith grammar) rule rule

/-- The first rule mentions the second. -/
def Mentions (grammar : Grammar) (rule target : Rule) : Prop :=
  ∃ element, grammar rule = some element ∧ target ∈ element.references

/-- Every rule that a rule mentions is defined. -/
def Closed (grammar : Grammar) : Prop :=
  ∀ rule target, Mentions grammar rule target → (grammar target).isSome

instance : Finite Rule :=
  Set.finite_univ_iff.mp (Rule.all.finite_toSet.subset fun rule _ => Rule.mem_all rule)

theorem card_rule_le : Nat.card Rule ≤ Rule.all.length := by
  classical
  have covered : (Set.univ : Set Rule) ⊆ ↑Rule.all.toFinset := fun rule _ => by
    simpa using Rule.mem_all rule
  calc Nat.card Rule = (Set.univ : Set Rule).ncard := (Set.ncard_univ Rule).symm
    _ ≤ (↑Rule.all.toFinset : Set Rule).ncard := Set.ncard_le_ncard covered
    _ = Rule.all.toFinset.card := Set.ncard_coe_finset _
    _ ≤ Rule.all.length := Rule.all.toFinset_card_le

variable {grammar : Grammar}

/-- The number of rules that may be open below a rule before a token is read. -/
noncomputable def leftHeight (grammar : Grammar) (rule : Rule) : Nat :=
  {target | TransGen (StartsWith grammar) rule target}.ncard

theorem leftHeight_lt (free : LeftRecursionFree grammar) (starts : StartsWith grammar rule target) :
    leftHeight grammar target < leftHeight grammar rule := by
  refine Set.ncard_lt_ncard ⟨fun _ below => .head starts below, fun all => ?_⟩
  exact free target (all (TransGen.single starts))

theorem leftHeight_lt_length (free : LeftRecursionFree grammar) (rule : Rule) :
    leftHeight grammar rule < Rule.all.length := by
  have proper : {target | TransGen (StartsWith grammar) rule target} ⊂ Set.univ :=
    Set.ssubset_univ_iff.mpr fun all => free rule (Set.eq_univ_iff_forall.mp all rule)
  calc leftHeight grammar rule < (Set.univ : Set Rule).ncard := Set.ncard_lt_ncard proper
    _ = Nat.card Rule := Set.ncard_univ Rule
    _ ≤ Rule.all.length := card_rule_le

/-- A bound on the levels of rules below a rule at a position of a text: each token that is left
may open a new stack of rules. -/
noncomputable def burden (grammar : Grammar) (size : Nat) (rule : Rule) (position : Nat) : Nat :=
  Rule.all.length * (size - position) + leftHeight grammar rule

theorem burden_lt (free : LeftRecursionFree grammar) (size : Nat) (rule : Rule) (position : Nat) :
    burden grammar size rule position < Rule.all.length * (size - position + 1) := by
  have height := leftHeight_lt_length free rule
  unfold burden
  rw [Nat.mul_add]
  omega

/-- Entering a rule behind a token, or one that the rule opens, makes the burden less. -/
theorem burden_decreases (free : LeftRecursionFree grammar)
    (below : (position < next ∧ next ≤ size) ∨ (next = position ∧ StartsWith grammar rule target)) :
    burden grammar size target next < burden grammar size rule position := by
  rcases below with ⟨later, inside⟩ | ⟨rfl, starts⟩
  · have fewer : size - next + 1 ≤ size - position := by omega
    calc burden grammar size target next < Rule.all.length * (size - next + 1) := burden_lt free ..
      _ ≤ Rule.all.length * (size - position) := Nat.mul_le_mul_left _ fewer
      _ ≤ burden grammar size rule position := Nat.le_add_right ..
  · have height := leftHeight_lt free starts
    unfold burden
    omega

end CypherAssist.Grammar
