import CypherAssist.Proofs.Grammar.Reading

/-! Reading behind other tokens. What is read from a position on does not depend on the tokens
before it, so the outcomes are those of the rest of the text alone but for their positions. One
outcome is kept for each end, so the end determines the derivation. -/
namespace CypherAssist.Grammar
open Token Outcomes Parts

/-- The place that lies so many positions later. -/
def Reach.shift (size : Nat) : Reach → Reach
  | .cut => .cut
  | .upTo position => .upTo (size + position)

@[simp] theorem Reach.shift_inj {size : Nat} {one two : Reach} :
    one.shift size = two.shift size ↔ one = two := by
  cases one <;> cases two <;> simp [shift]

@[simp] theorem Reach.shift_eq_cut {size : Nat} {reach : Reach} :
    reach.shift size = .cut ↔ reach = .cut := by
  cases reach <;> simp [shift]

namespace Derivation

mutual

/-- The same derivation over tokens that stand so many positions later. -/
def shift (size : Nat) : Derivation → Derivation
  | .token position => .token (size + position)
  | .node rule isPartial children => .node rule isPartial (shiftAll size children)

/-- Several derivations shifted in turn. -/
def shiftAll (size : Nat) : List Derivation → List Derivation
  | [] => []
  | derivation :: rest => derivation.shift size :: shiftAll size rest

end

@[simp] theorem shiftAll_append (size : Nat) (first second : List Derivation) :
    shiftAll size (first ++ second) = shiftAll size first ++ shiftAll size second := by
  induction first with
  | nil => rfl
  | cons derivation rest ih => simp [shiftAll, ih]

end Derivation

namespace Outcomes
variable {α : Type}

/-- Outcomes that end so many positions later, each changed alike. -/
def shift (size : Nat) (change : α → α) (found : Outcomes α) : Outcomes α :=
  found.map fun outcome => (outcome.1.shift size, change outcome.2)

variable {size : Nat} {change : α → α}

@[simp] theorem reaches_shift {found : Outcomes α} {reach : Reach} :
    (found.shift size change).reaches (reach.shift size) = found.reaches reach := by
  simp [reaches, shift, List.any_map, Function.comp_def]

theorem shift_merge (earlier later : Outcomes α) :
    (earlier.merge later).shift size change =
      (earlier.shift size change).merge (later.shift size change) := by
  have same : later.shift size change = later.map fun outcome =>
    (outcome.1.shift size, change outcome.2) := rfl
  simp only [merge, same, List.filter_map, Function.comp_def, reaches_shift]
  simp [shift]

theorem shift_foldl_merge {β γ : Type} {place : β → γ} {one : β → Outcomes α}
    {two : γ → Outcomes α} (same : ∀ item, two (place item) = (one item).shift size change)
    (items : List β) (known : Outcomes α) :
    (items.map place).foldl (fun grown item => grown.merge (two item)) (known.shift size change) =
      (items.foldl (fun grown item => grown.merge (one item)) known).shift size change := by
  induction items generalizing known with
  | nil => rfl
  | cons item rest ih =>
    rw [List.map_cons, List.foldl_cons, List.foldl_cons, same, ← shift_merge]
    exact ih _

end Outcomes

namespace Parts

/-- Outcomes of an element over tokens that stand so many positions later. -/
abbrev shift (size : Nat) (found : Parts) : Parts :=
  Outcomes.shift size (Derivation.shiftAll size) found

variable {size : Nat} {step other : Nat → Parts} {known : Parts}
  {frontier : List (Nat × List Derivation)}

theorem behind_shift (children : List Derivation) (more : Parts) :
    behind (Derivation.shiftAll size children) (shift size more) =
      shift size (behind children more) := by
  simp [behind, Outcomes.shift, Function.comp_def]

theorem extended_shift (same : ∀ position, other (size + position) = shift size (step position))
    (current : Parts) :
    extended other (shift size current) = shift size (extended step current) := by
  refine shift_foldl_merge (fun outcome => ?_) current []
  obtain ⟨reach, children⟩ := outcome
  cases reach with
  | cut => rfl
  | upTo position =>
    simp only [continued, Reach.shift, same, behind_shift]

/-- Positions to go on from, so many positions later. -/
def shiftFront (size : Nat) (frontier : List (Nat × List Derivation)) :
    List (Nat × List Derivation) :=
  frontier.map fun outcome => (size + outcome.1, Derivation.shiftAll size outcome.2)

theorem gathered_shift (same : ∀ position, other (size + position) = shift size (step position)) :
    gathered other (shift size known) (shiftFront size frontier) =
      shift size (gathered step known frontier) :=
  shift_foldl_merge (fun outcome => by simp only [same, behind_shift]) frontier known

theorem fresh_shift (known grown : Parts) :
    fresh (shift size known) (shift size grown) = shiftFront size (fresh known grown) := by
  simp only [fresh, shift, Outcomes.shift, shiftFront, List.length_map, ← List.map_drop,
    List.filterMap_map, List.map_filterMap]
  congr 1
  funext outcome
  obtain ⟨_ | _, _⟩ := outcome <;> rfl

theorem iterated_shift (same : ∀ position, other (size + position) = shift size (step position))
    (rounds : Nat) :
    iterated other rounds (shift size known) (shiftFront size frontier) =
      shift size (iterated step rounds known frontier) := by
  induction rounds generalizing known frontier with
  | zero => rfl
  | succ rounds ih =>
    cases frontier with
    | nil => rfl
    | cons outcome rest =>
      rw [iterated, ← ih, ← fresh_shift, ← gathered_shift same]
      rfl

end Parts

/-- What stands so many positions later in the second text is the first one. -/
def StandsAt (size : Nat) (input other : List Kind) : Prop :=
  ∀ position, other[size + position]? = input[position]?

theorem standsAt_append (front input : List Kind) :
    StandsAt front.length input (front ++ input) := fun position => by
  rw [List.getElem?_append_right (Nat.le_add_right ..), Nat.add_sub_cancel_left]

theorem standsAt_drop (size : Nat) (input : List Kind) : StandsAt size (input.drop size) input :=
  fun _ => List.getElem?_drop.symm

theorem StandsAt.length_le {size : Nat} {input other : List Kind}
    (stands : StandsAt size input other) : input.length ≤ other.length := by
  have beyond : other[size + other.length]? = none := List.getElem?_eq_none (Nat.le_add_left ..)
  rwa [stands, List.getElem?_eq_none_iff] at beyond

variable {grammar : Grammar} {size : Nat} {input other : List Kind}
  {descend later : Rule → Nat → Outcomes Derivation}

/-- The outcomes of a rule over tokens that stand so many positions later. -/
abbrev shiftRule (size : Nat) (found : Outcomes Derivation) : Outcomes Derivation :=
  found.shift size (Derivation.shift size)

private theorem readInOrder_shift {items : List Element}
    (each : ∀ item ∈ items, ∀ position, item.read other later (size + position) =
      Parts.shift size (item.read input descend position)) (current : Parts) :
    Element.readInOrder other later items (Parts.shift size current) =
      Parts.shift size (Element.readInOrder input descend items current) := by
  induction items generalizing current with
  | nil => rfl
  | cons item rest ih =>
    rw [Element.readInOrder, Element.readInOrder, extended_shift (each item (by simp))]
    exact ih (fun other inside => each other (List.mem_cons_of_mem _ inside)) _

private theorem readAny_shift {options : List Element} {position : Nat}
    (each : ∀ option ∈ options, option.read other later (size + position) =
      Parts.shift size (option.read input descend position)) (found : Parts) :
    Element.readAny other later options (size + position) (Parts.shift size found) =
      Parts.shift size (Element.readAny input descend options position found) := by
  induction options generalizing found with
  | nil => rfl
  | cons option rest ih =>
    rw [Element.readAny, Element.readAny, each option (by simp), ← shift_merge]
    exact ih (fun other inside => each other (List.mem_cons_of_mem _ inside)) _

/-- An element is read alike behind other tokens, if the rules that it enters are. -/
theorem read_shift (stands : StandsAt size input other) (sound : Sound grammar input descend)
    (same : ∀ rule position, later rule (size + position) =
      shiftRule size (descend rule position)) (element : Element) (position : Nat) :
    element.read other later (size + position) =
      Parts.shift size (element.read input descend position) := by
  induction element using Element.induction generalizing position with
  | token kind =>
    rw [Element.read, Element.read, stands]
    split
    · rfl
    · split <;> rfl
  | reference target =>
    rw [Element.read, Element.read, same]
    simp [Outcomes.shift, Derivation.shiftAll]
  | sequence items ih =>
    rw [Element.read, Element.read]
    exact readInOrder_shift ih [(.upTo position, [])]
  | choice options ih =>
    rw [Element.read, Element.read]
    exact readAny_shift (fun option member => ih option member position) []
  | optional item ih =>
    have nothing : [(.upTo (size + position), [])] = Parts.shift size [(.upTo position, [])] := rfl
    rw [Element.read, Element.read, ih, nothing, ← shift_merge]
  | repeated item ih =>
    have short := stands.length_le
    have rounds : other.length + 2 = other.length - input.length + (input.length + 2) := by omega
    rw [← iterated_read sound (other.length - input.length), Element.read, rounds]
    exact @iterated_shift _ _ _ [(.upTo position, [])] [(position, [])] ih _

theorem close_shift (rule : Rule) (found : Parts) (size : Nat) :
    Outcomes.close rule (Parts.shift size found) =
      shiftRule size (Outcomes.close rule found) := by
  simp [Outcomes.close, Outcomes.shift, Function.comp_def, Derivation.shift]

theorem readRule_shift (stands : StandsAt size input other) (depth : Nat) (rule : Rule)
    (position : Nat) :
    readRule grammar other depth rule (size + position) =
      shiftRule size (readRule grammar input depth rule position) := by
  induction depth generalizing rule position with
  | zero => rfl
  | succ depth ih =>
    simp only [readRule]
    cases grammar rule with
    | none => rfl
    | some element =>
      simp only [read_shift stands (readRule_sound grammar input depth) ih, close_shift]

/-- From so many positions on a rule is read as over what stands there alone. -/
theorem reading_of_standsAt (free : LeftRecursionFree grammar)
    (stands : StandsAt size input other) (rule : Rule) (position : Nat) :
    reading grammar other rule (size + position) =
      shiftRule size (reading grammar input rule position) := by
  have deep := burden_lt_fullDepth free input.length rule position
  have deeper : fullDepth input.length ≤ fullDepth other.length := by
    rw [fullDepth, fullDepth]
    exact Nat.succ_le_succ (Nat.mul_le_mul_left _ (Nat.add_le_add_right stands.length_le 2))
  rw [reading, readRule_shift stands, reading,
    readRule_stable free (Nat.lt_of_lt_of_le (Nat.lt_of_succ_lt deep) deeper)
      (Nat.lt_of_succ_lt deep)]

/-- Behind other tokens a rule is read as over the rest of the text alone. -/
theorem reading_shift (free : LeftRecursionFree grammar) (front input : List Kind) (rule : Rule)
    (position : Nat) :
    reading grammar (front ++ input) rule (front.length + position) =
      shiftRule front.length (reading grammar input rule position) :=
  reading_of_standsAt free (standsAt_append front input) rule position

/-- From any position on a rule is read as over the rest of the text alone. -/
theorem reading_drop (free : LeftRecursionFree grammar) (input : List Kind) (rule : Rule)
    (position : Nat) :
    reading grammar input rule position =
      shiftRule position (reading grammar (input.drop position) rule 0) :=
  reading_of_standsAt free (standsAt_drop position input) rule 0

/-! ## One outcome for each end -/

namespace Outcomes
variable {α β : Type}

/-- No two outcomes end at one place. -/
def Distinct (found : Outcomes α) : Prop := found.Pairwise fun one two => one.1 ≠ two.1

theorem eq_of_distinct {found : Outcomes α} (distinct : found.Distinct) {one two : α}
    (member : (reach, one) ∈ found) (also : (reach, two) ∈ found) : one = two := by
  induction found with
  | nil => cases member
  | cons outcome rest ih =>
    obtain ⟨apart, others⟩ := List.pairwise_cons.mp distinct
    rcases List.mem_cons.mp member with rfl | inside
    · rcases List.mem_cons.mp also with same | other
      · cases same
        rfl
      · exact (apart _ other rfl).elim
    · rcases List.mem_cons.mp also with rfl | other
      · exact (apart _ inside rfl).elim
      · exact ih others inside other

theorem distinct_map (change : Reach × α → β) {found : Outcomes α} (distinct : found.Distinct) :
    Distinct (found.map fun outcome => (outcome.1, change outcome)) :=
  List.pairwise_map.mpr distinct

theorem distinct_merge {earlier later : Outcomes α} (one : earlier.Distinct)
    (two : later.Distinct) : (earlier.merge later).Distinct := by
  refine List.pairwise_append.mpr ⟨one, two.sublist List.filter_sublist, ?_⟩
  intro known before found after same
  have new := (List.mem_filter.mp after).2
  rw [← same, reaches_iff.mpr ⟨known.2, before⟩] at new
  cases new

theorem distinct_foldl_merge {f : β → Outcomes α} (items : List β)
    (each : ∀ item ∈ items, (f item).Distinct) {known : Outcomes α} (distinct : known.Distinct) :
    (items.foldl (fun grown item => grown.merge (f item)) known).Distinct := by
  induction items generalizing known with
  | nil => exact distinct
  | cons item rest ih =>
    exact ih (fun other inside => each other (List.mem_cons_of_mem _ inside))
      (distinct_merge distinct (each item (by simp)))

end Outcomes

theorem distinct_extended {step : Nat → Parts} (each : ∀ position, (step position).Distinct)
    (current : Parts) : (extended step current).Distinct := by
  refine distinct_foldl_merge current (fun outcome _ => ?_) .nil
  obtain ⟨reach, children⟩ := outcome
  cases reach with
  | cut => exact List.pairwise_singleton ..
  | upTo position => exact distinct_map _ (each position)

theorem distinct_iterated {step : Nat → Parts} (each : ∀ position, (step position).Distinct)
    (rounds : Nat) {known : Parts} (distinct : known.Distinct)
    (frontier : List (Nat × List Derivation)) :
    (iterated step rounds known frontier).Distinct := by
  induction rounds generalizing known frontier with
  | zero => exact distinct
  | succ rounds ih =>
    cases frontier with
    | nil => exact distinct
    | cons outcome rest =>
      refine ih (distinct_foldl_merge _ (fun other _ => ?_) distinct) _
      exact distinct_map _ (each other.1)

/-- An element is read to each end once, if the rules that it enters are. -/
theorem read_distinct (each : ∀ rule position, (descend rule position).Distinct)
    (element : Element) (position : Nat) :
    (element.read input descend position).Distinct := by
  induction element using Element.induction generalizing position with
  | token kind =>
    rw [Element.read]
    split
    · exact List.pairwise_singleton ..
    · split
      · exact List.pairwise_singleton ..
      · exact .nil
  | reference target =>
    rw [Element.read]
    exact distinct_map _ (each target position)
  | sequence items ih =>
    rw [Element.read]
    generalize begun : [(Reach.upTo position, [])] = current
    have distinct : Distinct current := begun ▸ List.pairwise_singleton ..
    clear begun
    induction items generalizing current with
    | nil => exact distinct
    | cons item rest ihRest =>
      rw [Element.readInOrder]
      exact ihRest (fun other inside => ih other (List.mem_cons_of_mem _ inside)) _
        (distinct_extended (ih item (by simp)) current)
  | choice options ih =>
    rw [Element.read]
    generalize begun : ([] : Parts) = found
    have distinct : Distinct found := begun ▸ .nil
    clear begun
    induction options generalizing found with
    | nil => exact distinct
    | cons option rest ihRest =>
      rw [Element.readAny]
      exact ihRest (fun other inside => ih other (List.mem_cons_of_mem _ inside)) _
        (distinct_merge distinct (ih option (by simp) position))
  | optional item ih =>
    rw [Element.read]
    exact distinct_merge (ih position) (List.pairwise_singleton ..)
  | repeated item ih =>
    rw [Element.read]
    exact distinct_iterated ih _ (List.pairwise_singleton ..) _

/-- A rule is read to each end once. -/
theorem reading_distinct (grammar : Grammar) (input : List Kind) (rule : Rule) (position : Nat) :
    (reading grammar input rule position).Distinct := by
  unfold reading
  generalize fullDepth input.length = depth
  induction depth generalizing rule position with
  | zero => exact .nil
  | succ depth ih =>
    rw [readRule]
    split
    · exact .nil
    · exact distinct_map _ (read_distinct ih _ position)

end CypherAssist.Grammar
