import CypherAssist.Proofs.Grammar.Outcomes
import Mathlib.Data.List.Induction

/-! The order of outcomes. Where two outcomes of one part meet at one end, the one that continues
the earlier outcome of the parts before is kept; so what is found first decides between two
readings, and this order goes through sequences and repetitions. -/
namespace CypherAssist.Grammar

namespace Outcomes
variable {α β : Type} {first second : Nat} {known more : Outcomes α}

/-- No outcome ends in front of the second position unless one before it ends in front of the
first. -/
inductive Precedes (first second : Nat) : Outcomes α → Prop where
  | nil : Precedes first second []
  | here (reached : outcome.1 = .upTo first) : Precedes first second (outcome :: rest)
  | later (other : outcome.1 ≠ .upTo second) (ordered : Precedes first second rest) :
    Precedes first second (outcome :: rest)

theorem precedes_of_not_reaches (none : ¬ known.reaches (.upTo second)) :
    Precedes first second known := by
  induction known with
  | nil => exact .nil
  | cons outcome rest ih =>
    simp only [reaches, List.any_cons, Bool.or_eq_true, decide_eq_true_eq, not_or] at none
    exact .later none.1 (ih none.2)

theorem precedes_append (ordered : Precedes first second known)
    (later : known.reaches (.upTo first) ∨ Precedes first second more) :
    Precedes first second (known ++ more) := by
  induction ordered with
  | nil => exact later.resolve_left (by simp)
  | here reached => exact .here reached
  | @later outcome rest other _ ih =>
    by_cases reached : outcome.1 = .upTo first
    · exact .here reached
    · refine .later other (ih (later.imp_left fun found => ?_))
      simpa [reaches, reached] using found

theorem precedes_filter {keeps : Reach × α → Bool} (ordered : Precedes first second known)
    (kept : ∀ outcome ∈ known, outcome.1 = .upTo first → keeps outcome) :
    Precedes first second (known.filter keeps) := by
  induction ordered with
  | nil => exact .nil
  | here reached =>
    rw [List.filter_cons_of_pos (kept _ (List.mem_cons_self ..) reached)]
    exact .here reached
  | later other _ ih =>
    have below := ih fun outcome member => kept outcome (List.mem_cons_of_mem _ member)
    rw [List.filter_cons]
    split
    · exact .later other below
    · exact below

theorem precedes_map (f : Reach × α → β) (ordered : Precedes first second known) :
    Precedes first second (known.map fun outcome => (outcome.1, f outcome)) := by
  induction ordered with
  | nil => exact .nil
  | here reached => exact .here reached
  | later other _ ih => exact .later other ih

/-- What is added comes behind what was known, so it needs an order of its own only where the first
position was not reached yet. -/
theorem precedes_merge (ordered : Precedes first second known)
    (later : known.reaches (.upTo first) ∨ Precedes first second more) :
    Precedes first second (known.merge more) := by
  by_cases early : known.reaches (.upTo first) = true
  · exact precedes_append ordered (.inl early)
  · refine precedes_append ordered (.inr (precedes_filter (later.resolve_left early) ?_))
    rintro outcome - same
    simpa [same] using early

theorem reaches_of_precedes {before behind : Outcomes α} {outcome : Reach × α}
    (ordered : Precedes first second (before ++ outcome :: behind))
    (here : outcome.1 = .upTo second) (distinct : first ≠ second) :
    before.reaches (.upTo first) := by
  induction before with
  | nil =>
    cases ordered with
    | here reached => exact absurd (Reach.upTo.inj (reached.symm.trans here)) distinct
    | later other => exact absurd here other
  | cons earlier rest ih =>
    cases ordered with
    | here reached => simp [reaches, reached]
    | later _ ordered =>
      have found := ih ordered
      simp only [reaches, List.any_cons, Bool.or_eq_true] at found ⊢
      exact .inr found

/-- Merging one list of outcomes after the other keeps the order if each list has it that is added
before the first position is reached. -/
theorem precedes_foldl_merge {f : β → Outcomes α} {items : List β}
    (ordered : Precedes first second known)
    (each : ∀ before item behind, items = before ++ item :: behind →
      (before.foldl (fun grown item => grown.merge (f item)) known).reaches (.upTo first) ∨
        Precedes first second (f item)) :
    Precedes first second (items.foldl (fun grown item => grown.merge (f item)) known) := by
  induction items using List.reverseRecOn with
  | nil => exact ordered
  | append_singleton items last ih =>
    rw [List.foldl_append]
    refine precedes_merge (ih fun before item behind same => ?_) (each items last [] rfl)
    exact each before item (behind ++ [last]) (by simp [same])

/-- An outcome of a list is added where its end was not reached before. -/
theorem new_of_mem_foldl_merge {f : β → Outcomes α} {items : List β} {outcome : Reach × α}
    (member : outcome ∈ items.foldl (fun grown item => grown.merge (f item)) known) :
    outcome ∈ known ∨ ∃ before item behind, items = before ++ item :: behind ∧ outcome ∈ f item ∧
      ¬ (before.foldl (fun grown item => grown.merge (f item)) known).reaches outcome.1 := by
  induction items using List.reverseRecOn with
  | nil => exact .inl member
  | append_singleton items last ih =>
    rw [List.foldl_append, List.foldl_cons, List.foldl_nil, merge, List.mem_append,
      List.mem_filter] at member
    rcases member with early | ⟨here, new⟩
    · refine (ih early).imp_right ?_
      rintro ⟨before, item, behind, rfl, inside, new⟩
      exact ⟨before, item, behind ++ [last], by simp, inside, new⟩
    · exact .inr ⟨items, last, [], rfl, here, by simpa using new⟩

end Outcomes

namespace Parts
open Outcomes

variable {first second : Nat} {step : Nat → Parts} {current known : Parts}
  {frontier : List (Nat × List Derivation)}

theorem precedes_continued {outcome : Reach × List Derivation}
    (each : ∀ position, outcome.1 = .upTo position → Precedes first second (step position)) :
    Precedes first second (continued step outcome) := by
  obtain ⟨reach, children⟩ := outcome
  cases reach with
  | cut => exact .later nofun .nil
  | upTo position => exact precedes_map _ (each position rfl)

theorem reaches_continued {outcome : Reach × List Derivation} {position : Nat} {reach : Reach}
    (here : outcome.1 = .upTo position) (reached : (step position).reaches reach) :
    (continued step outcome).reaches reach := by
  obtain ⟨_, children⟩ := outcome
  cases here
  exact reaches_behind.trans reached

/-- Steps that have the order keep it. -/
theorem precedes_extended_of_each
    (each : ∀ position, current.reaches (.upTo position) → Precedes first second (step position)) :
    Precedes first second (extended step current) := by
  refine precedes_foldl_merge .nil fun before outcome behind same => .inr ?_
  refine precedes_continued fun position here => each position (reaches_iff.mpr ⟨outcome.2, ?_⟩)
  rw [← here, same]
  simp

/-- Behind ordered outcomes, a step from the second position comes behind one from the first, which
reaches the first position anyway. -/
theorem precedes_extended (distinct : first ≠ second) (ordered : Precedes first second current)
    (stays : (step first).reaches (.upTo first))
    (each : ∀ position, position ≠ second → Precedes first second (step position)) :
    Precedes first second (extended step current) := by
  refine precedes_foldl_merge .nil fun before outcome behind same => ?_
  by_cases here : outcome.1 = .upTo second
  · rw [same] at ordered
    obtain ⟨children, member⟩ := reaches_iff.mp (reaches_of_precedes ordered here distinct)
    exact .inl (reaches_foldl_merge.mpr (.inr ⟨_, member, reaches_continued rfl stays⟩))
  · exact .inr (precedes_continued fun position there =>
      each position fun equal => here (equal ▸ there))

/-- Behind ordered outcomes, where a step from the first position reaches the second, no outcome
that ended there already is kept. -/
theorem ne_of_mem_extended (distinct : first ≠ second) (ordered : Precedes first second current)
    (leads : (step first).reaches (.upTo second)) {all : List Derivation}
    (member : (.upTo second, all) ∈ extended step current) :
    ∃ position children added, position ≠ second ∧ (.upTo position, children) ∈ current ∧
      (.upTo second, added) ∈ step position ∧ all = children ++ added := by
  rcases new_of_mem_foldl_merge member with none | ⟨before, outcome, behind, rfl, inside, new⟩
  · cases none
  · obtain ⟨reach, children⟩ := outcome
    cases reach with
    | cut => simp [continued] at inside
    | upTo position =>
      obtain ⟨added, stepped, same⟩ := mem_behind.mp inside
      refine ⟨position, children, added, ?_, by simp, stepped, same⟩
      rintro rfl
      obtain ⟨others, earlier⟩ := reaches_iff.mp (reaches_of_precedes ordered rfl distinct)
      exact new (reaches_foldl_merge.mpr (.inr ⟨_, earlier, reaches_continued rfl leads⟩))

/-- A repetition keeps the order if its steps do, but for those from the first position, which has
been reached by then. -/
theorem precedes_iterated (rounds : Nat) (ordered : Precedes first second known)
    (front : ∀ position ∈ frontier.map (·.1), known.reaches (.upTo position))
    (each : ∀ position, position ≠ first → Precedes first second (step position)) :
    Precedes first second (iterated step rounds known frontier) := by
  induction rounds generalizing known frontier with
  | zero => exact ordered
  | succ rounds ih =>
    cases frontier with
    | nil => exact ordered
    | cons outcome others =>
      refine ih (precedes_foldl_merge ordered fun before item behind same => ?_)
        fun position member => ?_
      · by_cases here : item.1 = first
        · refine .inl (reaches_foldl_merge.mpr (.inl (here ▸ front item.1 ?_)))
          rw [same]
          simp
        · exact .inr (precedes_map _ (each item.1 here))
      · obtain ⟨⟨_, children⟩, inFresh, rfl⟩ := List.mem_map.mp member
        exact reaches_iff.mpr ⟨children, (mem_fresh_gathered inFresh).1⟩

end Parts

end CypherAssist.Grammar
