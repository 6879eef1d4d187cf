import CypherAssist.Proofs.Grammar.Path
import CypherAssist.Proofs.Grammar.Shape

/-! Statements. A semicolon occurs between statements only, so a text splits at its semicolons in
one way: behind statements that are all closed, the rest is a document, or the beginning of one,
exactly where it is one on its own. -/
namespace CypherAssist.Grammar
open Token

/-- The kind of the token between statements. -/
abbrev separator : Kind := .symbol .semicolon

/-- An element that neither asks for a separator nor enters a whole document. -/
def Element.separates : Element → Bool
  | .token kind => kind = separator
  | .reference rule => rule = start
  | _ => false

/-- Nothing in the element separates statements. -/
def Inner (element : Element) : Prop :=
  ∀ part ∈ element.subelements, part.separates = false

/-- Statements with a semicolon between any two, and perhaps one at the end. -/
inductive Script : List Kind → Prop where
  | last (statement : Word cypher (.reference .statement) word) : Script word
  | closed (statement : Word cypher (.reference .statement) word) : Script (word ++ [separator])
  | more (statement : Word cypher (.reference .statement) word) (others : Script more) :
    Script (word ++ separator :: more)

/-- Statements each of which is closed by a semicolon. -/
inductive Terminated : List Kind → Prop where
  | none : Terminated []
  | more (statement : Word cypher (.reference .statement) word) (others : Terminated more) :
    Terminated (word ++ separator :: more)

variable {kinds word more : List Kind} {items : List Element} {input : List Kind}

/-! ## Inside a statement -/

theorem inner_items (inner : ∀ part ∈ Element.subelementsOfAll items, part.separates = false)
    (member : item ∈ items) : Inner item :=
  fun part inside => inner part (Element.mem_subelementsOfAll.mpr ⟨item, member, inside⟩)

theorem inner_sequence (inner : Inner (.sequence items)) (member : item ∈ items) : Inner item :=
  inner_items (fun part inside => inner part (List.mem_cons_of_mem _ inside)) member

theorem inner_choice (inner : Inner (.choice items)) (member : item ∈ items) : Inner item :=
  inner_items (fun part inside => inner part (List.mem_cons_of_mem _ inside)) member

theorem inner_optional (inner : Inner (.optional item)) : Inner item :=
  fun part inside => inner part (List.mem_cons_of_mem _ inside)

theorem inner_repeated (inner : Inner (.repeated item)) : Inner item :=
  fun part inside => inner part (List.mem_cons_of_mem _ inside)

theorem inner_token {kind : Kind} (inner : Inner (.token kind)) : kind ≠ separator := by
  have apart := inner (.token kind) (Element.mem_subelements_self _)
  simpa [Element.separates] using apart

theorem inner_reference (inner : Inner (.reference rule)) : rule ≠ start := by
  have apart := inner (.reference rule) (Element.mem_subelements_self _)
  simpa [Element.separates] using apart

theorem inner_of_ne (below : rule ≠ start) : Inner (.reference rule) := by
  intro part inside
  cases List.mem_singleton.mp inside
  simpa [Element.separates] using below

/-- Only the rule of a whole document separates statements. -/
theorem inner_definition (below : rule ≠ start) : Inner (definition rule) := by
  have checked : ∀ rule ∈ Rule.all, rule ≠ start →
      ∀ part ∈ (definition rule).subelements, part.separates = false := by decide +kernel
  exact checked rule (Rule.mem_all rule) below

theorem no_separator_of_word (derived : Word cypher element word) (inner : Inner element) :
    separator ∉ word := by
  induction derived with
  | token => simpa using (inner_token inner).symm
  | reference defined _ ih =>
    cases defined
    exact ih (inner_definition (inner_reference inner))
  | empty | skipped | done => exact List.not_mem_nil
  | sequence _ _ ihFirst ihSecond =>
    have rest := ihSecond fun part inside => by
      rcases List.mem_cons.mp inside with rfl | inside
      · rfl
      · refine inner part (List.mem_cons_of_mem _ ?_)
        rw [Element.subelementsOfAll]
        exact List.mem_append_right _ inside
    rw [List.mem_append, not_or]
    exact ⟨ihFirst (inner_sequence inner (by simp)), rest⟩
  | choice member _ ih => exact ih (inner_choice inner member)
  | taken _ ih => exact ih (inner_optional inner)
  | again _ _ ihFirst ihSecond =>
    rw [List.mem_append, not_or]
    exact ⟨ihFirst (inner_repeated inner), ihSecond inner⟩

/-- No statement has a semicolon in it. -/
theorem no_separator_of_statement (statement : Word cypher (.reference .statement) word) :
    separator ∉ word :=
  no_separator_of_word statement (inner_of_ne (by decide))

/-- A path through a statement passes no semicolon. -/
theorem no_separator_of_spans {first last place : Nat}
    (spans : Spans cypher input (.reference .statement) first last) (low : first ≤ place)
    (high : place < last) : input[place]? ≠ some separator := by
  obtain ⟨kinds, word, placed, rfl⟩ := word_of_spans spans
  obtain ⟨behind, split⟩ := placed
  have found : input[place]? = kinds[place - first]? := by
    have inside : place - first < kinds.length := by omega
    have here := congrArg (·[place - first]?) split
    simp only [List.getElem?_drop, List.getElem?_append_left inside] at here
    rw [here, Nat.add_sub_cancel' low]
  rw [found]
  exact fun present => no_separator_of_statement word (List.mem_of_getElem? present)

/-! ## A document -/

/-- The statements behind the first one, each with the semicolon in front of it. -/
private theorem script_of_repeated
    (repeats : Word cypher (.repeated (.sequence [.token separator, .reference .statement])) kinds)
    (ending : more = [] ∨ more = [separator])
    (statement : Word cypher (.reference .statement) word) : Script (word ++ (kinds ++ more)) := by
  generalize same : Element.repeated (.sequence [.token separator, .reference .statement]) =
    element at repeats
  induction repeats generalizing word with
  | done =>
    rcases ending with rfl | rfl
    · simpa using Script.last statement
    · exact .closed statement
  | again first _ _ ih =>
    cases same
    cases first with
    | sequence semicolon next =>
      cases semicolon
      cases next with
      | sequence next nothing =>
        cases nothing
        have others := ih next rfl
        simpa using Script.more statement others
  | _ => cases same

/-- A document is a script. -/
theorem script_iff : Word cypher (.reference start) kinds ↔ Script kinds := by
  constructor
  · intro document
    cases document with
    | reference defined body =>
      cases defined
      cases body with
      | sequence statement others =>
        cases others with
        | sequence repeats others =>
          cases others with
          | sequence ending nothing =>
            cases nothing
            rw [List.append_nil]
            refine script_of_repeated repeats ?_ statement
            cases ending with
            | skipped => exact .inl rfl
            | taken semicolon => cases semicolon; exact .inr rfl
  · intro script
    suffices body : ∃ first repeats ending, kinds = first ++ (repeats ++ (ending ++ [])) ∧
        Word cypher (.reference .statement) first ∧
        Word cypher (.repeated (.sequence [.token separator, .reference .statement])) repeats ∧
        Word cypher (.optional (.token separator)) ending by
      obtain ⟨first, repeats, ending, rfl, statement, others, closing⟩ := body
      exact .reference rfl (.sequence statement (.sequence others (.sequence closing .empty)))
    induction script with
    | last statement => exact ⟨_, [], [], by simp, statement, .done, .skipped⟩
    | closed statement => exact ⟨_, [], [separator], by simp, statement, .done, .taken .token⟩
    | more statement _ ih =>
      obtain ⟨first, repeats, ending, rfl, next, others, closing⟩ := ih
      exact ⟨_, [separator] ++ (first ++ []) ++ repeats, ending, by simp, statement,
        .again (.sequence .token (.sequence next .empty)) others, closing⟩

/-- A text is split in one way at the first place of a kind. -/
private theorem eq_of_split {kind : Kind} {one two rest : List Kind} (apart : kind ∉ one)
    (alsoApart : kind ∉ two) (same : one ++ kind :: more = two ++ kind :: rest) :
    one = two ∧ more = rest := by
  rcases List.append_eq_append_iff.mp same with ⟨between, rfl, tail⟩ | ⟨between, rfl, tail⟩
  · cases between with
    | nil => simpa using tail
    | cons found others =>
      cases tail
      simp at alsoApart
  · cases between with
    | nil => simpa using tail.symm
    | cons found others =>
      cases tail
      simp at apart

/-- Behind a closed statement either nothing follows or a script. -/
theorem script_cons_iff (statement : Word cypher (.reference .statement) word) :
    Script (word ++ separator :: more) ↔ more = [] ∨ Script more := by
  have apart := no_separator_of_statement statement
  constructor
  · intro script
    generalize same : word ++ separator :: more = whole at script
    cases script with
    | last other =>
      have absent := no_separator_of_statement other
      rw [← same] at absent
      simp at absent
    | closed other =>
      obtain ⟨-, rfl⟩ := eq_of_split apart (no_separator_of_statement other) same
      exact .inl rfl
    | more other others =>
      obtain ⟨-, rfl⟩ := eq_of_split apart (no_separator_of_statement other) same
      exact .inr others
  · rintro (rfl | others)
    · exact .closed statement
    · exact .more statement others

/-- Behind a semicolon a script goes on as any other one. -/
theorem script_append (script : Script kinds) (inside : kinds.getLast? ≠ some separator)
    (others : Script more) : Script (kinds ++ separator :: more) := by
  induction script with
  | last statement => exact .more statement others
  | closed => exact absurd List.getLast?_concat inside
  | @more word rest statement _ ih =>
    rw [List.append_assoc, List.cons_append]
    refine .more statement (ih fun closing => inside ?_)
    cases rest with
    | nil => cases closing
    | cons kind rest => rwa [List.getLast?_append_cons, List.getLast?_cons_cons]

/-- A beginning of a script that ends with a semicolon is a script. -/
private theorem script_of_append (script : Script (kinds ++ more))
    (closing : kinds.getLast? = some separator) : Script kinds := by
  generalize same : kinds ++ more = longer at script
  induction script generalizing kinds with
  | last statement =>
    refine absurd ?_ (no_separator_of_statement statement)
    rw [← same]
    exact List.mem_append_left _ (List.mem_of_getLast? closing)
  | closed statement =>
    obtain ⟨front, rest, rfl, apart⟩ := List.eq_append_cons_of_mem (List.mem_of_getLast? closing)
    rw [List.append_assoc, List.cons_append] at same
    obtain ⟨rfl, none⟩ := eq_of_split apart (no_separator_of_statement statement) same
    obtain ⟨rfl, -⟩ := List.append_eq_nil_iff.mp none
    exact .closed statement
  | more statement _ ih =>
    obtain ⟨front, rest, rfl, apart⟩ := List.eq_append_cons_of_mem (List.mem_of_getLast? closing)
    rw [List.append_assoc, List.cons_append] at same
    obtain ⟨rfl, others⟩ := eq_of_split apart (no_separator_of_statement statement) same
    cases rest with
    | nil => exact .closed statement
    | cons kind rest =>
      refine .more statement (ih ?_ others)
      rwa [List.getLast?_append_cons, List.getLast?_cons_cons] at closing

/-- A beginning of a document that ends with a semicolon is a document. -/
theorem word_of_viable (viable : Viable cypher start kinds)
    (closing : kinds.getLast? = some separator) : Word cypher (.reference start) kinds := by
  obtain ⟨more, word⟩ := viable
  exact script_iff.mpr (script_of_append (script_iff.mp word) closing)

/-! ## Behind closed statements -/

/-- A script that ends with a semicolon closes all of its statements. -/
theorem terminated_of_script (script : Script kinds) (closing : kinds.getLast? = some separator) :
    Terminated kinds := by
  induction script with
  | last statement =>
    exact absurd (List.mem_of_getLast? closing) (no_separator_of_statement statement)
  | closed statement => exact .more statement .none
  | @more word more statement others ih =>
    cases more with
    | nil => exact .more statement .none
    | cons kind rest =>
      refine .more statement (ih ?_)
      rwa [List.getLast?_append_cons, List.getLast?_cons_cons] at closing

theorem getLast?_of_terminated (terminated : Terminated kinds) (begun : kinds ≠ []) :
    kinds.getLast? = some separator := by
  induction terminated with
  | none => exact absurd rfl begun
  | @more word more _ _ ih =>
    rw [List.getLast?_append_cons]
    cases more with
    | nil => rfl
    | cons kind rest => rw [List.getLast?_cons_cons, ih (List.cons_ne_nil _ _)]

/-- Behind closed statements a text goes on as a document of its own. -/
theorem word_append_iff (terminated : Terminated kinds) (some : more ≠ []) :
    Word cypher (.reference start) (kinds ++ more) ↔ Word cypher (.reference start) more := by
  rw [script_iff, script_iff]
  induction terminated with
  | none => rfl
  | more statement _ ih =>
    rw [List.append_assoc, List.cons_append, script_cons_iff statement, ih]
    simp [some]

theorem viable_append_terminated_iff (terminated : Terminated kinds) (some : more ≠ []) :
    Viable cypher start (kinds ++ more) ↔ Viable cypher start more := by
  simp only [Viable, List.append_assoc]
  exact exists_congr fun rest => word_append_iff terminated (by simp [some])

end CypherAssist.Grammar
