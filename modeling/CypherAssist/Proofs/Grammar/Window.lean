import CypherAssist.Proofs.Grammar.Acceptance
import CypherAssist.Proofs.Grammar.Locality

/-! Windows of tokens. A derivation that ends in front of a token has looked at no other tokens than
those it covers, and of several that end there the one that is kept is chosen among them alone. So a
window of tokens has the same derivations in every text, whatever stands around it and however much
the parser has read before. -/
namespace CypherAssist.Grammar
open Token Outcomes

namespace Outcomes
variable {α : Type} {size : Nat} {found : Outcomes α} {reach : Reach}

theorem at?_shift {change : α → α} :
    (found.shift size change).at? (reach.shift size) = (found.at? reach).map change := by
  simp [at?, shift, List.find?_map, Function.comp_def]

theorem at?_within (inside : reach.isWithin size) :
    (found.within size).at? reach = found.at? reach := by
  rw [at?, at?, within, List.find?_filter]
  congr 2
  funext outcome
  by_cases same : outcome.1 = reach
  · simp [same, inside]
  · simp [same]

end Outcomes

variable {grammar : Grammar} {input : List Kind} {position size : Nat}

/-! ## Windows -/

/-- So many tokens from a position on. -/
def window (input : List Kind) (position size : Nat) : List Kind := (input.drop position).take size

/-- Two windows with the same tokens, one by one, are the same. -/
theorem window_eq {other : List Kind} {place : Nat}
    (same : ∀ offset < size, input[position + offset]? = other[place + offset]?) :
    window input position size = window other place size := by
  refine List.ext_getElem? fun offset => ?_
  rw [window, window, List.getElem?_take, List.getElem?_take, List.getElem?_drop,
    List.getElem?_drop]
  split
  · exact same offset ‹_›
  · rfl

/-- What is kept for the end of a window is what is kept for the window alone, moved to its
place. -/
theorem reading_window (free : LeftRecursionFree grammar) (input : List Kind) (rule : Rule)
    (position size : Nat) :
    (reading grammar input rule position).at? (.upTo (position + size)) =
      ((reading grammar (window input position size) rule 0).at? (.upTo size)).map
        (Derivation.shift position) := by
  have place : Reach.upTo (position + size) = (Reach.upTo size).shift position := rfl
  rw [reading_drop free, place, at?_shift, window]
  congr 1
  rcases Nat.le_total (input.drop position).length size with short | long
  · rw [List.take_of_length_le short]
  · have alike := reading_append free ((input.drop position).take size)
      ((input.drop position).drop size) rule 0
    have inside : (Reach.upTo size).isWithin ((input.drop position).take size).length := by
      simpa [Reach.isWithin] using long
    rw [List.take_append_drop] at alike
    rw [← at?_within inside, alike, at?_within inside]

/-! ## Parsers that have been used -/

theorem faithful_of_used {kinds : Array Kind} {depth : Nat} {state : ParserState}
    (free : LeftRecursionFree grammar) (used : Used grammar kinds depth state) :
    ∃ asked, Faithful grammar kinds.toList ∅ asked state := by
  induction used with
  | fresh =>
    exact ⟨∅, { noted := fun _ _ member => member.elim
                source := fun _ member => nomatch member
                origin := fun _ => rfl
                recorded := fun _ _ _ present => by simp at present }⟩
  | @again state rule position _ _ _ ran ih =>
    obtain ⟨asked, faithful⟩ := ih
    have performs := parseRule_performs free depth rule position ∅ (fun _ member => member.elim)
      asked state faithful
    rw [ran] at performs
    exact ⟨_, performs.2⟩

/-- However much a parser has been used, it gives the plain reading of a rule, or gives up for want
of depth or at an undefined rule. -/
theorem parseRule_of_used {kinds : Array Kind} {depth : Nat} {state : ParserState}
    (free : LeftRecursionFree grammar) (used : Used grammar kinds depth state) (rule : Rule)
    (position : Nat) :
    match parseRule grammar kinds depth rule position state with
    | .error obstacle => Excuse grammar kinds.size depth rule position obstacle
    | .ok (found, _) => found = reading grammar kinds.toList rule position := by
  obtain ⟨asked, faithful⟩ := faithful_of_used free used
  have performs := parseRule_performs free depth rule position ∅ (fun _ member => member.elim)
    asked state faithful
  cases ran : parseRule grammar kinds depth rule position state with
  | error obstacle => simpa only [ran] using performs
  | ok outcome =>
    rw [ran] at performs
    exact performs.1

theorem parseRule_succeeds {kinds : Array Kind} {depth : Nat} {state : ParserState}
    (free : LeftRecursionFree grammar) (closed : Closed grammar) (defined : (grammar rule).isSome)
    (used : Used grammar kinds depth state) (deep : fullDepth kinds.size ≤ depth)
    (position : Nat) :
    ∃ found after, parseRule grammar kinds depth rule position state = .ok (found, after) := by
  have told := parseRule_of_used free used rule position
  cases ran : parseRule grammar kinds depth rule position state with
  | ok outcome => exact ⟨outcome.1, outcome.2, rfl⟩
  | error obstacle =>
    rw [ran] at told
    have short := (tooDeep_of_excuse closed defined told).2
    have bound := burden_lt_fullDepth free kinds.size rule position
    omega

/-! ## Locality -/

section
variable {one other : Array Kind} {depth otherDepth place : Nat} {state otherState : ParserState}

/-- Derivations are local. Where two texts have the same tokens in a window, a parser of either, new
or used before, finds at its end the same derivation of a rule or none in both, up to the place of
the window. Where all rules are defined both parsers get through. -/
theorem derivations_local (free : LeftRecursionFree grammar)
    (used : Used grammar one depth state) (usedToo : Used grammar other otherDepth otherState)
    (same : ∀ offset < size, one[position + offset]? = other[place + offset]?) :
    (∀ found after otherFound otherAfter,
      parseRule grammar one depth rule position state = .ok (found, after) →
      parseRule grammar other otherDepth rule place otherState = .ok (otherFound, otherAfter) →
      ∃ kept? : Option Derivation,
        found.at? (.upTo (position + size)) = kept?.map (Derivation.shift position) ∧
        otherFound.at? (.upTo (place + size)) = kept?.map (Derivation.shift place)) ∧
    (Closed grammar → (grammar rule).isSome →
      fullDepth one.size ≤ depth → fullDepth other.size ≤ otherDepth →
      (∃ found after, parseRule grammar one depth rule position state = .ok (found, after)) ∧
      ∃ found after, parseRule grammar other otherDepth rule place otherState =
        .ok (found, after)) := by
  refine ⟨fun found after otherFound otherAfter ran alsoRan => ?_,
    fun closed defined deep deepToo => ⟨parseRule_succeeds free closed defined used deep position,
      parseRule_succeeds free closed defined usedToo deepToo place⟩⟩
  have told := parseRule_of_used free used rule position
  have toldToo := parseRule_of_used free usedToo rule place
  rw [ran] at told
  rw [alsoRan] at toldToo
  have alike : window one.toList position size = window other.toList place size :=
    window_eq (by simpa using same)
  refine ⟨(reading grammar (window one.toList position size) rule 0).at? (.upTo size), ?_, ?_⟩
  · rw [told, reading_window free]
  · rw [toldToo, reading_window free, alike]

/-- A clause that returns a name is derived alike at the end of a text, and behind a name where the
text goes on and the derivation may as well. -/
theorem return_name_local :
    ∃ found after otherFound otherAfter kept,
      parseRule cypher #[.keyword .RETURN, .plainName] (fullDepth 4) .returnClause 0 {} =
        .ok (found, after) ∧
      parseRule cypher #[.plainName, .keyword .RETURN, .plainName, .symbol .dot] (fullDepth 4)
        .returnClause 1 {} = .ok (otherFound, otherAfter) ∧
      found.at? (.upTo 2) = some (Derivation.shift 0 kept) ∧
      otherFound.at? (.upTo 3) = some (Derivation.shift 1 kept) := by
  have same : ∀ offset < 2,
      (#[.keyword .RETURN, .plainName] : Array Kind)[0 + offset]? =
        (#[.plainName, .keyword .RETURN, .plainName, .symbol .dot] : Array Kind)[1 + offset]? := by
    decide
  obtain ⟨alike, succeeds⟩ := @derivations_local cypher 0 2 _ _ (fullDepth 4) (fullDepth 4) 1
    {} {} .returnClause cypher_leftRecursionFree .fresh .fresh same
  obtain ⟨⟨found, after, ran⟩, otherFound, otherAfter, alsoRan⟩ :=
    succeeds cypher_closed rfl (by decide) (by decide)
  obtain ⟨kept?, here, there⟩ := alike _ _ _ _ ran alsoRan
  have fresh : parseFrom cypher #[.keyword .RETURN, .plainName] (fullDepth 4) .returnClause 0 =
      .ok (found, after) := ran
  have word : Word cypher (.reference .returnClause) [.keyword .RETURN, .plainName] := by
    decide +kernel
  have reached := ((parseFrom_exact cypher_leftRecursionFree (by decide) fresh).ends 2).mpr
    ⟨by decide, by decide, word⟩
  cases kept? with
  | none => simp [at?_eq_none_iff.mp here] at reached
  | some kept => exact ⟨found, after, otherFound, otherAfter, kept, ran, alsoRan, here, there⟩

end

end CypherAssist.Grammar
