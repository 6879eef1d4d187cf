import CypherAssist.Grammar.Element

/-! The language of a grammar, by derivation alone. `Word` says which token kinds an element stands
for; `Awaits` says which kind a derivation asks for next, once it has read some tokens. No parser
and no position occurs in either, so they can be set against parsing and against completion. -/
namespace CypherAssist.Grammar
open Token

/-- An induction over elements that treats the items of a sequence and the options of a choice as
one list of smaller elements. -/
@[elab_as_elim]
theorem Element.induction {motive : Element → Prop}
    (token : ∀ kind, motive (.token kind))
    (reference : ∀ target, motive (.reference target))
    (sequence : ∀ items, (∀ item ∈ items, motive item) → motive (.sequence items))
    (choice : ∀ options, (∀ option ∈ options, motive option) → motive (.choice options))
    (optional : ∀ item, motive item → motive (.optional item))
    (repeated : ∀ item, motive item → motive (.repeated item)) (element : Element) :
    motive element :=
  Element.rec (motive_1 := motive) (motive_2 := fun items => ∀ item ∈ items, motive item)
    token reference sequence choice optional repeated
    (fun _ member => nomatch member)
    (fun _ _ first others _ member => by
      rcases List.mem_cons.mp member with rfl | member
      · exact first
      · exact others _ member) element

/-- The kinds of tokens that an element stands for. -/
inductive Word (grammar : Grammar) : Element → List Kind → Prop where
  | token {kind : Kind} : Word grammar (.token kind) [kind]
  | reference (defined : grammar rule = some element) (body : Word grammar element word) :
    Word grammar (.reference rule) word
  | empty : Word grammar (.sequence []) []
  | sequence (first : Word grammar item word) (second : Word grammar (.sequence rest) words) :
    Word grammar (.sequence (item :: rest)) (word ++ words)
  | choice (member : option ∈ options) (chosen : Word grammar option word) :
    Word grammar (.choice options) word
  | skipped : Word grammar (.optional item) []
  | taken (inside : Word grammar item word) : Word grammar (.optional item) word
  | done : Word grammar (.repeated item) []
  | again (first : Word grammar item word) (second : Word grammar (.repeated item) words) :
    Word grammar (.repeated item) (word ++ words)

/-- Some derivation of the element has read the tokens and asks for one of this kind. Of the rules
that are still open there, all are admitted; rules closed before may be any. -/
inductive Awaits (grammar : Grammar) (admitted : Rule → Prop) :
    Element → List Kind → Kind → Prop where
  | token : Awaits grammar admitted (.token asked) [] asked
  | reference (enters : admitted rule) (defined : grammar rule = some element)
    (inside : Awaits grammar admitted element seen asked) :
    Awaits grammar admitted (.reference rule) seen asked
  | head (inside : Awaits grammar admitted item seen asked) :
    Awaits grammar admitted (.sequence (item :: rest)) seen asked
  | tail (before : Word grammar item word)
    (inside : Awaits grammar admitted (.sequence rest) seen asked) :
    Awaits grammar admitted (.sequence (item :: rest)) (word ++ seen) asked
  | choice (member : option ∈ options) (inside : Awaits grammar admitted option seen asked) :
    Awaits grammar admitted (.choice options) seen asked
  | optional (inside : Awaits grammar admitted item seen asked) :
    Awaits grammar admitted (.optional item) seen asked
  | first (inside : Awaits grammar admitted item seen asked) :
    Awaits grammar admitted (.repeated item) seen asked
  | later (before : Word grammar item word)
    (inside : Awaits grammar admitted (.repeated item) seen asked) :
    Awaits grammar admitted (.repeated item) (word ++ seen) asked

/-- Every rule may be open. -/
def anyRule : Rule → Prop := fun _ => True

/-- The tokens read can be continued to a word of the rule. -/
def Viable (grammar : Grammar) (rule : Rule) (seen : List Kind) : Prop :=
  ∃ more, Word grammar (.reference rule) (seen ++ more)

variable {grammar : Grammar} {kind : Kind}

/-- A longer text is viable only if the shorter one is. -/
theorem viable_of_append (viable : Viable grammar rule (seen ++ more)) :
    Viable grammar rule seen := by
  obtain ⟨rest, word⟩ := viable
  exact ⟨more ++ rest, by simpa only [List.append_assoc] using word⟩

/-- A word of two parts is read up to any place in the first part, or through it into the second. -/
private theorem append_eq_append_cons {kind : α} {first second seen more : List α}
    (same : first ++ second = seen ++ kind :: more) :
    (∃ rest, first = seen ++ kind :: rest) ∨
      ∃ rest, seen = first ++ rest ∧ second = rest ++ kind :: more := by
  rcases List.append_eq_append_iff.mp same with ⟨rest, rfl, rfl⟩ | ⟨rest, rfl, tail⟩
  · exact .inr ⟨rest, rfl, rfl⟩
  · cases rest with
    | nil => exact .inr ⟨[], by simp, by simpa using tail.symm⟩
    | cons found rest =>
      simp only [List.cons_append, List.cons.injEq] at tail
      obtain ⟨rfl, rfl⟩ := tail
      exact .inl ⟨rest, rfl⟩

/-- In front of each token of a word the derivation asks for that token. -/
theorem awaits_of_word (derived : Word grammar element word) (split : word = seen ++ kind :: more) :
    Awaits grammar anyRule element seen kind := by
  induction derived generalizing seen more with
  | token =>
    cases seen with
    | nil =>
      simp only [List.nil_append, List.cons.injEq] at split
      obtain ⟨rfl, -⟩ := split
      exact .token
    | cons => simp at split
  | reference defined _ ih => exact .reference trivial defined (ih split)
  | empty | skipped | done => simp at split
  | sequence first _ ihFirst ihSecond =>
    rcases append_eq_append_cons split with ⟨rest, inFirst⟩ | ⟨rest, rfl, inSecond⟩
    · exact .head (ihFirst inFirst)
    · exact .tail first (ihSecond inSecond)
  | choice member _ ih => exact .choice member (ih split)
  | taken _ ih => exact .optional (ih split)
  | again first _ ihFirst ihSecond =>
    rcases append_eq_append_cons split with ⟨rest, inFirst⟩ | ⟨rest, rfl, inSecond⟩
    · exact .first (ihFirst inFirst)
    · exact .later first (ihSecond inSecond)

/-! ## Productive grammars -/

namespace Element

mutual

/-- An element and all elements in it. -/
def subelements : Element → List Element
  | .token kind => [.token kind]
  | .reference target => [.reference target]
  | .sequence items => .sequence items :: subelementsOfAll items
  | .choice options => .choice options :: subelementsOfAll options
  | .optional item => .optional item :: item.subelements
  | .repeated item => .repeated item :: item.subelements

/-- The elements in several elements. -/
def subelementsOfAll : List Element → List Element
  | [] => []
  | item :: rest => item.subelements ++ subelementsOfAll rest

end

theorem mem_subelements_self (element : Element) : element ∈ element.subelements := by
  cases element <;> simp [subelements]

theorem mem_subelementsOfAll :
    part ∈ subelementsOfAll items ↔ ∃ item ∈ items, part ∈ item.subelements := by
  induction items with
  | nil => simp [subelementsOfAll]
  | cons item rest ih => simp [subelementsOfAll, ih]

end Element

/-- Some word exists for every element that occurs inside. -/
def Fruitful (grammar : Grammar) (element : Element) : Prop :=
  ∀ part ∈ element.subelements, ∃ word, Word grammar part word

/-- No part of any rule is a dead end. -/
def Productive (grammar : Grammar) : Prop :=
  ∀ rule element, grammar rule = some element → Fruitful grammar element

theorem fruitful_head (fruitful : Fruitful grammar (.sequence (item :: rest))) :
    Fruitful grammar item := fun part member =>
  fruitful part (by simp [Element.subelements, Element.subelementsOfAll, member])

/-- What is left of a fruitful sequence is fruitful. -/
theorem fruitful_tail (fruitful : Fruitful grammar (.sequence (item :: rest))) :
    Fruitful grammar (.sequence rest) := by
  have inside (part) (member : part ∈ Element.subelementsOfAll rest) :
      ∃ word, Word grammar part word :=
    fruitful part (by simp [Element.subelements, Element.subelementsOfAll, member])
  intro part member
  rcases List.mem_cons.mp member with rfl | member
  · -- The word of the longer sequence ends with one of the shorter.
    obtain ⟨word, derived⟩ := fruitful _ (Element.mem_subelements_self _)
    cases derived with
    | sequence _ second => exact ⟨_, second⟩
  · exact inside part member

theorem fruitful_option (member : option ∈ options)
    (fruitful : Fruitful grammar (.choice options)) :
    Fruitful grammar option := fun part inside =>
  fruitful part (List.mem_cons_of_mem _ (Element.mem_subelementsOfAll.mpr ⟨option, member, inside⟩))

/-- In a productive grammar every reading can be completed, whatever it asks for next. -/
theorem word_of_awaits (productive : Productive grammar) (fruitful : Fruitful grammar element)
    (awaits : Awaits grammar admitted element seen kind) :
    ∃ more, Word grammar element (seen ++ kind :: more) := by
  induction awaits with
  | token => exact ⟨[], .token⟩
  | reference _ defined _ ih =>
    obtain ⟨more, word⟩ := ih (productive _ _ defined)
    exact ⟨more, .reference defined word⟩
  | head _ ih =>
    obtain ⟨more, word⟩ := ih (fruitful_head fruitful)
    obtain ⟨rest, words⟩ := fruitful_tail fruitful _ (Element.mem_subelements_self _)
    have whole := Word.sequence word words
    exact ⟨more ++ rest, by simpa only [List.append_assoc, List.cons_append] using whole⟩
  | tail before _ ih =>
    obtain ⟨more, word⟩ := ih (fruitful_tail fruitful)
    exact ⟨more, by simpa only [List.append_assoc] using Word.sequence before word⟩
  | choice member _ ih =>
    obtain ⟨more, word⟩ := ih (fruitful_option member fruitful)
    exact ⟨more, .choice member word⟩
  | optional _ ih =>
    obtain ⟨more, word⟩ := ih fun part member => fruitful part (List.mem_cons_of_mem _ member)
    exact ⟨more, .taken word⟩
  | first _ ih =>
    obtain ⟨more, word⟩ := ih fun part member => fruitful part (List.mem_cons_of_mem _ member)
    exact ⟨more, by simpa using Word.again word .done⟩
  | later before _ ih =>
    obtain ⟨more, word⟩ := ih fruitful
    exact ⟨more, by simpa only [List.append_assoc] using Word.again before word⟩

/-- A token fits behind a text exactly when some derivation asks for it there. -/
theorem viable_append_iff (productive : Productive grammar) :
    Viable grammar rule (seen ++ [kind]) ↔ Awaits grammar anyRule (.reference rule) seen kind := by
  constructor
  · rintro ⟨more, word⟩
    exact awaits_of_word word (List.append_assoc seen [kind] more)
  · intro awaits
    cases awaits with
    | reference enters same inside =>
      obtain ⟨more, word⟩ := word_of_awaits productive (productive _ _ same) inside
      exact ⟨more, by simpa using Word.reference same word⟩

end CypherAssist.Grammar
