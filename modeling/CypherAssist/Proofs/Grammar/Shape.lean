import CypherAssist.Grammar.Cypher
import CypherAssist.Proofs.Grammar.LeftCorner

/-! Properties that can be read off the right-hand sides of a grammar, and Cypher's among them: it
mentions defined rules only, has no left recursion and no dead ends, and a document can always go
on. What may be empty and what may come first is overestimated, which is safe on both counts. -/
namespace CypherAssist.Grammar
open Token Relation

namespace Element

mutual

/-- Whether an element may stand for no tokens, where the rules that may are given. -/
def canVanish (vanishing : Rule → Bool) : Element → Bool
  | .token _ => false
  | .reference target => vanishing target
  | .sequence items => allVanish vanishing items
  | .choice options => anyVanishes vanishing options
  | .optional _ => true
  | .repeated _ => true

/-- Whether all of the elements may stand for no tokens. -/
def allVanish (vanishing : Rule → Bool) : List Element → Bool
  | [] => true
  | item :: rest => item.canVanish vanishing && allVanish vanishing rest

/-- Whether some of the elements may stand for no tokens. -/
def anyVanishes (vanishing : Rule → Bool) : List Element → Bool
  | [] => false
  | option :: rest => option.canVanish vanishing || anyVanishes vanishing rest

end

mutual

/-- The rules that an element may enter before it has read a token. -/
def openings (vanishing : Rule → Bool) : Element → List Rule
  | .token _ => []
  | .reference target => [target]
  | .sequence items => openingsInOrder vanishing items
  | .choice options => openingsOfAny vanishing options
  | .optional item => item.openings vanishing
  | .repeated item => item.openings vanishing

/-- The rules that elements one after the other may enter before a token is read. -/
def openingsInOrder (vanishing : Rule → Bool) : List Element → List Rule
  | [] => []
  | item :: rest =>
    if item.canVanish vanishing then item.openings vanishing ++ openingsInOrder vanishing rest
    else item.openings vanishing

/-- The rules that some option may enter before a token is read. -/
def openingsOfAny (vanishing : Rule → Bool) : List Element → List Rule
  | [] => []
  | option :: rest => option.openings vanishing ++ openingsOfAny vanishing rest

end

mutual

/-- Whether an element has a word, where rules that have one are given. -/
def bears (bearing : Rule → Bool) : Element → Bool
  | .token _ => true
  | .reference target => bearing target
  | .sequence items => allBear bearing items
  | .choice options => anyBears bearing options
  | .optional _ => true
  | .repeated _ => true

/-- Whether all of the elements have words. -/
def allBear (bearing : Rule → Bool) : List Element → Bool
  | [] => true
  | item :: rest => item.bears bearing && allBear bearing rest

/-- Whether some of the elements have words. -/
def anyBears (bearing : Rule → Bool) : List Element → Bool
  | [] => false
  | option :: rest => option.bears bearing || anyBears bearing rest

end

end Element

variable {grammar : Grammar} {kind : Kind} {vanishing : Rule → Bool}

/-! ## Left recursion -/

/-- The rules given as vanishing include every rule whose right-hand side can vanish. -/
def Vanishing (grammar : Grammar) (vanishing : Rule → Bool) : Prop :=
  ∀ rule element, grammar rule = some element → element.canVanish vanishing → vanishing rule

theorem anyVanishes_of_mem (member : option ∈ options) (vanishes : option.canVanish vanishing) :
    Element.anyVanishes vanishing options := by
  induction options with
  | nil => cases member
  | cons other rest ih =>
    rw [Element.anyVanishes, Bool.or_eq_true]
    rcases List.mem_cons.mp member with rfl | member
    · exact .inl vanishes
    · exact .inr (ih member)

theorem canVanish_of_word (closed : Vanishing grammar vanishing) (word : Word grammar element kinds)
    (empty : kinds = []) : element.canVanish vanishing := by
  induction word with
  | token => cases empty
  | reference defined _ ih => exact closed _ _ defined (ih empty)
  | empty | skipped | taken | done | again => rfl
  | sequence _ _ ihFirst ihSecond =>
    obtain ⟨first, second⟩ := List.append_eq_nil_iff.mp empty
    rw [Element.canVanish, Element.allVanish, ihFirst first, Bool.true_and]
    exact ihSecond second
  | choice member _ ih => exact anyVanishes_of_mem member (ih empty)

theorem mem_openingsOfAny_of_mem (member : option ∈ options)
    (opening : rule ∈ option.openings vanishing) :
    rule ∈ Element.openingsOfAny vanishing options := by
  induction options with
  | nil => cases member
  | cons other rest ih =>
    rw [Element.openingsOfAny]
    rcases List.mem_cons.mp member with rfl | member
    · exact List.mem_append_left _ opening
    · exact List.mem_append_right _ (ih member)

theorem mem_openings_of_opens (closed : Vanishing grammar vanishing)
    (opens : Opens grammar element rule) :
    rule ∈ element.openings vanishing := by
  induction opens with
  | reference => exact List.mem_singleton.mpr rfl
  | head _ ih =>
    rw [Element.openings, Element.openingsInOrder]
    split
    · exact List.mem_append_left _ ih
    · exact ih
  | tail nullable _ ih =>
    rw [Element.openings, Element.openingsInOrder, if_pos (canVanish_of_word closed nullable rfl)]
    exact List.mem_append_right _ ih
  | choice member _ ih => exact mem_openingsOfAny_of_mem member ih
  | optional _ ih | repeated _ ih => exact ih

/-- There is no left recursion where some rank falls with each rule entered first. -/
theorem leftRecursionFree_of_rank (closed : Vanishing grammar vanishing) (rank : Rule → Nat)
    (falls : ∀ rule element, grammar rule = some element → ∀ target ∈ element.openings vanishing,
      rank target < rank rule) : LeftRecursionFree grammar := by
  have below (rule target) (starts : StartsWith grammar rule target) : rank target < rank rule := by
    obtain ⟨element, defined, opens⟩ := starts
    exact falls rule element defined target (mem_openings_of_opens closed opens)
  intro rule loop
  have less : rank rule < rank rule := by
    refine TransGen.trans_induction_on
      (motive := fun {first last} _ => rank last < rank first) loop ?_ ?_
    · exact fun starts => below _ _ starts
    · exact fun _ _ first second => Nat.lt_trans second first
  exact Nat.lt_irrefl _ less

/-! ## Dead ends -/

/-- Whether a rule has a word that can be found within so many levels of rules. -/
def bearing (grammar : Grammar) : Nat → Rule → Bool
  | 0, _ => false
  | levels + 1, rule =>
    match grammar rule with
    | none => false
    | some element => element.bears (bearing grammar levels)

theorem word_of_bears {given : Rule → Bool}
    (words : ∀ rule, given rule → ∃ word, Word grammar (.reference rule) word) (element : Element)
    (bears : element.bears given) : ∃ word, Word grammar element word := by
  induction element using Element.induction with
  | token kind => exact ⟨_, .token⟩
  | reference target => exact words target bears
  | sequence items ih =>
    rw [Element.bears] at bears
    induction items with
    | nil => exact ⟨_, .empty⟩
    | cons item rest ihRest =>
      rw [Element.allBear, Bool.and_eq_true] at bears
      obtain ⟨word, first⟩ := ih item (by simp) bears.1
      obtain ⟨words, second⟩ := ihRest
        (fun other inside => ih other (List.mem_cons_of_mem _ inside)) bears.2
      exact ⟨_, .sequence first second⟩
  | choice options ih =>
    rw [Element.bears] at bears
    induction options with
    | nil => cases bears
    | cons option rest ihRest =>
      rw [Element.anyBears, Bool.or_eq_true] at bears
      rcases bears with here | later
      · obtain ⟨word, chosen⟩ := ih option (by simp) here
        exact ⟨word, .choice (by simp) chosen⟩
      · obtain ⟨word, derived⟩ := ihRest
          (fun other inside => ih other (List.mem_cons_of_mem _ inside)) later
        cases derived with
        | choice member chosen => exact ⟨word, .choice (List.mem_cons_of_mem _ member) chosen⟩
  | optional item => exact ⟨_, .skipped⟩
  | repeated item => exact ⟨_, .done⟩

theorem word_of_bearing (levels : Nat) (rule : Rule) (found : bearing grammar levels rule) :
    ∃ word, Word grammar (.reference rule) word := by
  induction levels generalizing rule with
  | zero => cases found
  | succ levels ih =>
    rw [bearing] at found
    split at found
    · cases found
    · rename_i element defined
      obtain ⟨word, derived⟩ := word_of_bears ih element found
      exact ⟨word, .reference defined derived⟩

/-! ## Cypher -/

/-- The number of rules that may be open below a rule before a token is read, to so many levels. -/
def leftRank (vanishing : Rule → Bool) : Nat → Rule → Nat
  | 0, _ => 0
  | levels + 1, rule =>
    (((definition rule).openings vanishing).map fun target =>
      leftRank vanishing levels target + 1).foldl max 0

/-- Only a path of namespaces may be empty. -/
def vanishes (rule : Rule) : Bool := rule = .namespacePath

/-- Each option for a plain name is a single token. -/
theorem exists_token_of_mem_names (member : option ∈ names) : ∃ kind, option = .token kind := by
  rcases List.mem_cons.mp member with rfl | member
  · exact ⟨_, rfl⟩
  · obtain ⟨word, -, rfl⟩ := List.mem_map.mp member
    exact ⟨_, rfl⟩

theorem cypher_closed : Closed cypher := fun _ _ _ => rfl

theorem cypher_vanishing : Vanishing cypher vanishes := by
  have checked : ∀ rule ∈ Rule.all, (definition rule).canVanish vanishes → vanishes rule := by
    decide +kernel
  rintro rule element ⟨rfl⟩
  exact checked rule (Rule.mem_all rule)

/-- Cypher has no left recursion. -/
theorem cypher_leftRecursionFree : LeftRecursionFree cypher := by
  have checked : ∀ rule ∈ Rule.all, ∀ target ∈ (definition rule).openings vanishes,
      leftRank vanishes 30 target < leftRank vanishes 30 rule := by decide +kernel
  refine leftRecursionFree_of_rank cypher_vanishing (leftRank vanishes 30) ?_
  rintro rule element ⟨rfl⟩
  exact checked rule (Rule.mem_all rule)

/-- Cypher has no dead ends. -/
theorem cypher_productive : Productive cypher := by
  have checked : ∀ rule ∈ Rule.all, ∀ part ∈ (definition rule).subelements,
      part.bears (bearing cypher 30) := by
    decide +kernel
  rintro rule element ⟨rfl⟩ part inside
  exact word_of_bears (word_of_bearing 30) part (checked rule (Rule.mem_all rule) part inside)

/-- A rule that cannot be empty asks for a first token. -/
theorem exists_awaits_first (solid : ¬ vanishes rule) :
    ∃ kind, Awaits cypher anyRule (.reference rule) [] kind := by
  obtain ⟨word, derived⟩ := cypher_productive rule _ rfl _ (Element.mem_subelements_self _)
  have whole : Word cypher (.reference rule) word := .reference rfl derived
  cases word with
  | nil => exact absurd (canVanish_of_word cypher_vanishing whole rfl) solid
  | cons kind more => exact ⟨kind, awaits_of_word whole (List.nil_append _).symm⟩

theorem awaits_repeated (before : Word grammar element words) (same : element = .repeated item)
    (inside : Awaits grammar admitted item seen kind) :
    Awaits grammar admitted (.repeated item) (words ++ seen) kind := by
  induction before with
  | done => cases same; exact .first inside
  | again first _ _ ih =>
    cases same
    rw [List.append_assoc]
    exact .later first (ih rfl)
  | _ => cases same

/-- Behind every document there is room for a semicolon or, after one, for a statement. -/
theorem awaits_of_document (document : Word cypher (.reference start) seen) :
    ∃ kind, Awaits cypher anyRule (.reference start) seen kind := by
  suffices continues : ∃ kind, Awaits cypher anyRule (definition .statements) seen kind by
    obtain ⟨kind, awaits⟩ := continues
    exact ⟨kind, .reference trivial rfl awaits⟩
  cases document with
  | reference defined body =>
    cases defined
    cases body with
    | sequence first others =>
      cases others with
      | sequence repeats last =>
        cases last with
        | sequence closing nothing =>
          cases nothing
          cases closing with
          | skipped => exact ⟨_, .tail first (.tail repeats (.head (.optional .token)))⟩
          | taken semicolon =>
            cases semicolon
            obtain ⟨kind, begins⟩ := exists_awaits_first (show ¬ vanishes .statement by decide)
            exact ⟨kind, .tail first (.head
              (awaits_repeated repeats rfl (.tail .token (.head begins))))⟩

end CypherAssist.Grammar
