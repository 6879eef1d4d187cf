import CypherAssist.Proofs.Grammar.Shift

/-! Reading in front of other tokens. What comes behind a text may add readings that run on into it
or break off elsewhere. It never takes the place of one that ends inside the text: for each of its
ends the derivation that is kept is the one kept for the text alone. -/
namespace CypherAssist.Grammar
open Token Outcomes Parts

/-- The place lies among the first so many tokens, or right behind them. -/
def Reach.isWithin (size : Nat) : Reach → Bool
  | .cut => false
  | .upTo position => position ≤ size

namespace Outcomes
variable {α β : Type} {size : Nat}

/-- The outcomes that end within so many tokens. -/
def within (size : Nat) (found : Outcomes α) : Outcomes α :=
  found.filter fun outcome => outcome.1.isWithin size

theorem mem_within {found : Outcomes α} {stop : Nat} {value : α} :
    (.upTo stop, value) ∈ found.within size ↔ (.upTo stop, value) ∈ found ∧ stop ≤ size := by
  simp [within, Reach.isWithin]

theorem reaches_within {found : Outcomes α} {reach : Reach} (inside : reach.isWithin size) :
    (found.within size).reaches reach = found.reaches reach := by
  rw [Bool.eq_iff_iff, reaches_iff, reaches_iff]
  simp [within, inside]

theorem within_map (change : Reach × α → β) (found : Outcomes α) :
    within size (found.map fun outcome => (outcome.1, change outcome)) =
      (found.within size).map fun outcome => (outcome.1, change outcome) := by
  simp [within, List.filter_map, Function.comp_def]

theorem within_merge (earlier later : Outcomes α) :
    (earlier.merge later).within size = (earlier.within size).merge (later.within size) := by
  rw [merge, merge, within, List.filter_append, ← within, within, List.filter_filter, within,
    List.filter_filter]
  congr 1
  refine List.filter_congr fun outcome _ => ?_
  cases inside : outcome.1.isWithin size with
  | false => simp
  | true => rw [← within, reaches_within inside, Bool.and_comm]

theorem merge_nil (known : Outcomes α) : known.merge [] = known := by
  simp [merge]

/-- What is merged from items that give nothing within the tokens does not count there. -/
theorem within_foldl_merge (f : β → Outcomes α) (keeps : β → Bool) (items : List β)
    (known : Outcomes α)
    (beyond : ∀ item ∈ items, keeps item = false → (f item).within size = []) :
    (items.foldl (fun grown item => grown.merge (f item)) known).within size =
      (items.filter keeps).foldl (fun grown item => grown.merge ((f item).within size))
        (known.within size) := by
  induction items generalizing known with
  | nil => rfl
  | cons item rest ih =>
    rw [List.foldl_cons, ih _ fun other member => beyond other (List.mem_cons_of_mem _ member),
      within_merge]
    cases kept : keeps item with
    | true => rw [List.filter_cons_of_pos kept, List.foldl_cons]
    | false =>
      rw [beyond item (by simp) kept, merge_nil, List.filter_cons_of_neg (by simp [kept])]

end Outcomes

namespace Parts
variable {size : Nat} {step : Nat → Parts} {known : Parts} {frontier : List (Nat × List Derivation)}

/-- Nothing that starts behind the tokens ends within them. -/
def Onward (size : Nat) (step : Nat → Parts) : Prop :=
  ∀ position, size < position → (step position).within size = []

theorem within_behind (children : List Derivation) (more : Parts) :
    (behind children more).within size = behind children (more.within size) :=
  within_map _ more

theorem within_extended (onward : Onward size step) (current : Parts) :
    (extended step current).within size =
      extended (fun position => (step position).within size) (current.within size) := by
  rw [extended, within_foldl_merge (continued step) (fun outcome => outcome.1.isWithin size)]
  · refine List.foldl_ext _ _ _ fun following outcome member => ?_
    obtain ⟨reach, children⟩ := outcome
    cases reach with
    | cut => simp [Reach.isWithin] at member
    | upTo position => simp only [continued, within_behind]
  · intro outcome _ beyond
    obtain ⟨reach, children⟩ := outcome
    cases reach with
    | cut => rfl
    | upTo position =>
      have late : size < position := by simpa [Reach.isWithin] using beyond
      simp only [continued, within_behind, onward position late]
      rfl

/-- The positions of a frontier that lie within the tokens. -/
def frontWithin (size : Nat) (frontier : List (Nat × List Derivation)) :
    List (Nat × List Derivation) :=
  frontier.filter fun outcome => outcome.1 ≤ size

theorem within_gathered (onward : Onward size step) :
    (gathered step known frontier).within size =
      gathered (fun position => (step position).within size) (known.within size)
        (frontWithin size frontier) := by
  rw [gathered, within_foldl_merge _ fun outcome => decide (outcome.1 ≤ size)]
  · simp only [within_behind]
    rfl
  · intro outcome _ beyond
    rw [within_behind, onward _ (by simpa using beyond)]
    rfl

theorem frontWithin_fresh (step : Nat → Parts) (known : Parts)
    (frontier : List (Nat × List Derivation)) :
    frontWithin size (fresh known (gathered step known frontier)) =
      fresh (known.within size) ((gathered step known frontier).within size) := by
  obtain ⟨more, grown, -⟩ := foldl_merge_append
    (fun outcome => behind outcome.2 (step outcome.1)) frontier known
  rw [gathered, grown, fresh, fresh, within, within, List.filter_append, List.drop_left,
    List.drop_left, frontWithin, List.filter_filterMap, List.filterMap_filter]
  refine List.filterMap_congr fun outcome _ => ?_
  obtain ⟨reach, children⟩ := outcome
  cases reach with
  | cut => rfl
  | upTo position =>
    by_cases inside : position ≤ size
    · simp [continuing?, Reach.isWithin, inside]
    · simp [continuing?, Reach.isWithin, inside, Nat.lt_of_not_le inside]

theorem iterated_nil (step : Nat → Parts) (rounds : Nat) (known : Parts) :
    iterated step rounds known [] = known := by
  cases rounds <;> rfl

/-- A repetition that goes on behind the tokens finds nothing more within them. -/
theorem within_iterated (onward : Onward size step) (rounds : Nat) :
    (iterated step rounds known frontier).within size =
      iterated (fun position => (step position).within size) rounds (known.within size)
        (frontWithin size frontier) := by
  induction rounds generalizing known frontier with
  | zero => rfl
  | succ rounds ih =>
    cases frontier with
    | nil => rfl
    | cons outcome rest =>
      rw [iterated, ih, frontWithin_fresh, within_gathered onward]
      cases inside : frontWithin size (outcome :: rest) with
      | nil =>
        have still : fresh (known.within size) (known.within size) = [] := by simp [fresh]
        rw [gathered, List.foldl_nil, still, iterated_nil, iterated]
      | cons => rw [iterated]

end Parts

variable {grammar : Grammar} {input more : List Kind}
  {descend longer : Rule → Nat → Outcomes Derivation}

/-- Nothing read from behind the tokens ends within them. -/
theorem onward_read (sound : Sound grammar kinds descend) (element : Element) (size : Nat) :
    Onward size (element.read kinds descend) := by
  intro position late
  refine List.filter_eq_nil_iff.mpr fun outcome member inside => ?_
  obtain ⟨reach, children⟩ := outcome
  cases reach with
  | cut => cases inside
  | upTo stop =>
    have early : stop ≤ size := by simpa [Reach.isWithin] using inside
    rcases spans_le (spans_of_derives (derives_of_mem_read sound element _ _ _ member)) with
      rfl | moved <;> omega

private theorem within_readInOrder {items : List Element} (sound : Sound grammar input descend)
    (soundToo : Sound grammar (input ++ more) longer)
    (each : ∀ item ∈ items, ∀ position,
      (item.read (input ++ more) longer position).within input.length =
        (item.read input descend position).within input.length)
    {current other : Parts} (same : current.within input.length = other.within input.length) :
    (Element.readInOrder (input ++ more) longer items current).within input.length =
      (Element.readInOrder input descend items other).within input.length := by
  induction items generalizing current other with
  | nil => exact same
  | cons item rest ih =>
    rw [Element.readInOrder, Element.readInOrder]
    refine ih (fun later inside => each later (List.mem_cons_of_mem _ inside)) ?_
    rw [within_extended (onward_read soundToo item _), within_extended (onward_read sound item _),
      same, funext (each item (by simp))]

private theorem within_readAny {options : List Element} {position : Nat}
    (each : ∀ option ∈ options,
      (option.read (input ++ more) longer position).within input.length =
        (option.read input descend position).within input.length)
    {found other : Parts} (same : found.within input.length = other.within input.length) :
    (Element.readAny (input ++ more) longer options position found).within input.length =
      (Element.readAny input descend options position other).within input.length := by
  induction options generalizing found other with
  | nil => exact same
  | cons option rest ih =>
    rw [Element.readAny, Element.readAny]
    refine ih (fun later inside => each later (List.mem_cons_of_mem _ inside)) ?_
    rw [within_merge, within_merge, same, each option (by simp)]

private theorem within_read_token (kind : Kind) (position : Nat) :
    ((Element.token kind).read (input ++ more) longer position).within input.length =
      ((Element.token kind).read input descend position).within input.length := by
  rw [Element.read, Element.read]
  rcases Nat.lt_or_ge position input.length with inside | behind
  · rw [List.getElem?_append_left inside]
  · rw [List.getElem?_eq_none behind]
    have late : ¬ position + 1 ≤ input.length := by omega
    split
    · rfl
    · split <;> simp [within, Reach.isWithin, late]

/-- With other tokens behind it an element is read alike within the text, if the rules that it
enters are. -/
theorem within_read (sound : Sound grammar input descend)
    (soundToo : Sound grammar (input ++ more) longer)
    (same : ∀ rule position, (longer rule position).within input.length =
      (descend rule position).within input.length) (element : Element) (position : Nat) :
    (element.read (input ++ more) longer position).within input.length =
      (element.read input descend position).within input.length := by
  induction element using Element.induction generalizing position with
  | token kind => exact within_read_token kind position
  | reference target =>
    rw [Element.read, Element.read, within_map, within_map, same]
  | sequence items ih =>
    rw [Element.read, Element.read]
    exact within_readInOrder sound soundToo ih rfl
  | choice options ih =>
    rw [Element.read, Element.read]
    exact within_readAny (fun option member => ih option member position) rfl
  | optional item ih => rw [Element.read, Element.read, within_merge, within_merge, ih]
  | repeated item ih =>
    have rounds : (input ++ more).length + 2 = more.length + (input.length + 2) := by
      rw [List.length_append]
      omega
    rw [← iterated_read sound more.length, Element.read, rounds,
      within_iterated (onward_read sound item _), within_iterated (onward_read soundToo item _),
      funext ih]

theorem within_readRule (depth : Nat) (rule : Rule) (position : Nat) :
    (readRule grammar (input ++ more) depth rule position).within input.length =
      (readRule grammar input depth rule position).within input.length := by
  induction depth generalizing rule position with
  | zero => rfl
  | succ depth ih =>
    simp only [readRule]
    cases grammar rule with
    | none => rfl
    | some element =>
      simp only [Outcomes.close, within_map]
      rw [within_read (readRule_sound grammar input depth) (readRule_sound grammar _ depth) ih]

/-- With other tokens behind the text a rule is read to the same ends within it, and with the same
derivations. -/
theorem reading_append (free : LeftRecursionFree grammar) (input more : List Kind) (rule : Rule)
    (position : Nat) :
    (reading grammar (input ++ more) rule position).within input.length =
      (reading grammar input rule position).within input.length := by
  have deep := burden_lt_fullDepth free input.length rule position
  have deeper : fullDepth input.length ≤ fullDepth (input ++ more).length := by
    rw [fullDepth, fullDepth, List.length_append]
    exact Nat.succ_le_succ (Nat.mul_le_mul_left _ (by omega))
  rw [reading, within_readRule, reading,
    readRule_stable free (Nat.lt_of_lt_of_le (Nat.lt_of_succ_lt deep) deeper)
      (Nat.lt_of_succ_lt deep)]

/-- A derivation that ends inside a text is kept there whatever comes behind. -/
theorem mem_reading_append (free : LeftRecursionFree grammar) {stop : Nat}
    (inside : stop ≤ input.length) {derivation : Derivation} :
    (.upTo stop, derivation) ∈ reading grammar (input ++ more) rule position ↔
      (.upTo stop, derivation) ∈ reading grammar input rule position := by
  have same := reading_append free input more rule position
  have here : (.upTo stop, derivation) ∈
      (reading grammar (input ++ more) rule position).within input.length ↔
        (.upTo stop, derivation) ∈ (reading grammar input rule position).within input.length := by
    rw [same]
  simpa only [mem_within, inside, and_true] using here

/-- Tokens in front of a text only move what is derived for it. -/
theorem mem_reading_behind (free : LeftRecursionFree grammar) (front : List Kind) {stop : Nat}
    {derivation : Derivation}
    (member : (.upTo stop, derivation) ∈ reading grammar input rule position) :
    (.upTo (front.length + stop), derivation.shift front.length) ∈
      reading grammar (front ++ input) rule (front.length + position) := by
  rw [reading_shift free]
  exact List.mem_map.mpr ⟨_, member, rfl⟩

end CypherAssist.Grammar
