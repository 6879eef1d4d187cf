import CypherAssist.Document.Parse
import CypherAssist.Proofs.Grammar.Acceptance
import CypherAssist.Proofs.Grammar.Reparse

/-! The first misfit of a text. Its tokens up to some place are the longest beginning that a
document can have. Parsing asks for tokens in vain at that place and at none behind it, and asks
there for each kind that a document can go on with; so the place is found without being looked for.
The tokens before it can then be parsed again, as deep as the whole text was. -/
namespace CypherAssist.Document
open Token Grammar Outcomes

variable {limits : Limits}

/-- So many tokens are the longest beginning of the text that is the beginning of a document. -/
structure StopsAt (kinds : List Kind) (count : Nat) : Prop where
  within : count ≤ kinds.length
  viable : Viable cypher Grammar.start (kinds.take count)
  misfit : ∀ kind, kinds[count]? = some kind →
    ¬ Viable cypher Grammar.start (kinds.take count ++ [kind])

variable {kinds : List Kind} {count : Nat}

theorem viable_of_word {seen : List Kind} (word : Word cypher (.reference Grammar.start) seen) :
    Viable cypher Grammar.start seen :=
  ⟨[], by simpa using word⟩

/-- Every beginning of a document can go on, also where it is a document already. -/
theorem exists_viable_append {seen : List Kind} (viable : Viable cypher Grammar.start seen) :
    ∃ kind, Viable cypher Grammar.start (seen ++ [kind]) := by
  obtain ⟨more, word⟩ := viable
  cases more with
  | nil =>
    obtain ⟨kind, awaits⟩ := awaits_of_document (by simpa using word)
    exact ⟨kind, (viable_append_iff cypher_productive).mpr awaits⟩
  | cons kind rest => exact ⟨kind, rest, by simpa using word⟩

theorem viable_nil : Viable cypher Grammar.start [] := by
  obtain ⟨word, derived⟩ := cypher_productive Grammar.start _ rfl _ (Element.mem_subelements_self _)
  exact ⟨word, .reference rfl derived⟩

theorem viable_take_of_le {less : Nat} (viable : Viable cypher Grammar.start (kinds.take count))
    (le : less ≤ count) :
    Viable cypher Grammar.start (kinds.take less) := by
  have shorter : kinds.take less = (kinds.take count).take less := by
    rw [List.take_take, Nat.min_eq_left le]
  rw [← List.take_append_drop less (kinds.take count), ← shorter] at viable
  exact viable_of_append viable

/-- A text that is no beginning of a document stops being one somewhere. -/
theorem exists_stopsAt (kinds : List Kind) : ∃ count, StopsAt kinds count := by
  by_contra never
  have all (count) (within : count ≤ kinds.length) :
      Viable cypher Grammar.start (kinds.take count) := by
    induction count with
    | zero => exact viable_nil
    | succ count ih =>
      by_contra stuck
      refine never ⟨count, Nat.le_of_succ_le within, ih (Nat.le_of_succ_le within),
        fun kind found viable => stuck ?_⟩
      rwa [List.take_add_one, found]
  refine never ⟨kinds.length, Nat.le_refl _, all _ (Nat.le_refl _), fun kind found => ?_⟩
  simp at found

/-- No longer beginning is that of a document. -/
theorem le_of_viable_take (stops : StopsAt kinds count) {place : Nat}
    (within : place ≤ kinds.length) (viable : Viable cypher Grammar.start (kinds.take place)) :
    place ≤ count := by
  by_contra beyond
  have inside : count < kinds.length := by omega
  refine stops.misfit kinds[count] (List.getElem?_eq_getElem inside) ?_
  rw [List.take_concat_get']
  exact viable_take_of_le viable (by omega)

theorem viable_iff_of_stopsAt (stops : StopsAt kinds count) :
    Viable cypher Grammar.start kinds ↔ count = kinds.length := by
  constructor
  · intro viable
    have whole := le_of_viable_take stops (Nat.le_refl _) (by rwa [List.take_length])
    have within := stops.within
    omega
  · rintro rfl
    have viable := stops.viable
    rwa [List.take_length] at viable

/-! ## What parsing asks for -/

theorem mem_tries_iff {place : Nat} {kind : Kind} :
    (place, kind) ∈ tries cypher kinds (.reference Grammar.start) 0 ↔
      place ≤ kinds.length ∧ Viable cypher Grammar.start (kinds.take place ++ [kind]) ∧
        kinds[place]? ≠ some kind := by
  rw [viable_append_iff cypher_productive]
  simp only [tries, Set.mem_ofPred_eq, meets_iff (Nat.zero_le _), Nat.zero_le, true_and,
    List.drop_zero, Nat.sub_zero, and_assoc]

/-- The farthest tokens asked for in vain are those that can follow the longest beginning. -/
theorem expected_of_stopsAt {state : ParserState} (stops : StopsAt kinds count)
    (recalls : Recalls (tries cypher kinds (.reference Grammar.start) 0) state) :
    state.farthest = count ∧
      ∀ kind, kind ∈ state.expected ↔ Viable cypher Grammar.start (kinds.take count ++ [kind]) := by
  have asked (kind) (fits : Viable cypher Grammar.start (kinds.take count ++ [kind])) :
      (count, kind) ∈ tries cypher kinds (.reference Grammar.start) 0 :=
    mem_tries_iff.mpr ⟨stops.within, fits, fun found => stops.misfit kind found fits⟩
  have farthest : state.farthest = count := by
    obtain ⟨kind, fits⟩ := exists_viable_append stops.viable
    have noted := recalls.noted _ _ (asked kind fits)
    cases expected : state.expected with
    | nil =>
      have atStart := recalls.origin expected
      simp [expected, atStart] at noted
    | cons other rest =>
      obtain ⟨within, viable, -⟩ := mem_tries_iff.mp (recalls.source other (by simp [expected]))
      have bound := le_of_viable_take stops within (viable_of_append viable)
      omega
  refine ⟨farthest, fun kind => ⟨fun expected => ?_, fun fits => ?_⟩⟩
  · have source := recalls.source kind expected
    rw [farthest] at source
    exact (mem_tries_iff.mp source).2.1
  · rcases recalls.noted _ _ (asked kind fits) with before | ⟨-, expected⟩
    · omega
    · exact expected

theorem halts_of_stopsAt (stops : StopsAt kinds count) :
    Halts cypher kinds count (.reference Grammar.start) 0 := by
  intro kind meets found
  obtain ⟨-, -, awaits⟩ := (meets_iff (Nat.zero_le _)).mp meets
  rw [List.drop_zero, Nat.sub_zero] at awaits
  exact stops.misfit kind found ((viable_append_iff cypher_productive).mpr awaits)

/-! ## Parsing once more -/

variable {visible : Array Token}

/-- The kinds of visible tokens. -/
def kindsOf (visible : Array Token) : List Kind := visible.toList.map (·.kind)

theorem toList_kinds (visible : Array Token) : (visible.map (·.kind)).toList = kindsOf visible :=
  Array.toList_map

theorem length_kindsOf (visible : Array Token) : (kindsOf visible).length = visible.size := by
  simp [kindsOf]

theorem kindsOf_take (visible : Array Token) (count : Nat) :
    kindsOf (visible.take count) = (kindsOf visible).take count := by
  simp [kindsOf, List.map_take]

/-- Parsing a document finds what the grammar says, and asks for what the grammar says. -/
theorem derive_exact (ran : derive limits visible = .ok (found, state)) :
    found = reading cypher (kindsOf visible) Grammar.start 0 ∧
      Exact cypher (kindsOf visible) Grammar.start 0 found ∧
      Recalls (tries cypher (kindsOf visible) (.reference Grammar.start) 0) state := by
  rw [derive] at ran
  have performs := performs_of_parsed cypher_leftRecursionFree ran
  rw [toList_kinds] at performs
  have exact := parseFrom_exact cypher_leftRecursionFree (Nat.zero_le _) ran
  rw [toList_kinds] at exact
  exact ⟨performs.1, exact, performs.2⟩

/-- Parsing a document gives up only where it nests too deeply, which takes many tokens. -/
theorem tooDeep_of_derive (gaveUp : derive limits visible = .error obstacle) :
    obstacle = .tooDeep ∧ limits.parsing < Rule.all.length * (visible.size + 1) := by
  have performs := parseFrom_performs cypher_leftRecursionFree (visible.map (·.kind)) limits.parsing
    Grammar.start 0
  rw [derive] at gaveUp
  rw [gaveUp, Array.size_map] at performs
  obtain ⟨same, deep⟩ := tooDeep_of_excuse cypher_closed rfl performs
  exact ⟨same, Nat.lt_of_le_of_lt deep (burden_lt cypher_leftRecursionFree visible.size _ 0)⟩

theorem derive_of_short (short : Rule.all.length * (visible.size + 1) ≤ limits.parsing) :
    ∃ found state, derive limits visible = .ok (found, state) := by
  cases ran : derive limits visible with
  | ok outcome => exact ⟨outcome.1, outcome.2, rfl⟩
  | error obstacle => exact absurd (tooDeep_of_derive ran).2 (Nat.not_lt.mpr short)

/-- The tokens before the first misfit nest no deeper than the whole text. -/
theorem derive_take (stops : StopsAt (kindsOf visible) count) (inside : count < visible.size)
    (ran : derive limits visible = .ok (found, state)) :
    ∃ seen later, derive limits (visible.take count) = .ok (seen, later) := by
  have halts := halts_of_stopsAt stops
  rw [← toList_kinds] at halts
  rw [derive] at ran ⊢
  have shorter : (visible.take count).map (·.kind) = (visible.map (·.kind)).take count := by
    simp
  rw [shorter]
  exact parseFrom_take (by simpa using inside) (Nat.zero_le _) halts ran

end CypherAssist.Document
