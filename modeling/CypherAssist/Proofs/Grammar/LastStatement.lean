import CypherAssist.Proofs.Grammar.Acceptance
import CypherAssist.Proofs.Grammar.Shift
import CypherAssist.Proofs.Grammar.Statements

/-! The last statement of a document. Behind its last semicolon a text has one statement at most,
and what is derived for the whole text ends with what is derived for that statement alone. -/
namespace CypherAssist.Grammar
open Token Outcomes Parts

/-- A place where a statement may begin: the start of the text, or behind a semicolon. -/
def Begins (kinds : List Kind) (place : Nat) : Prop :=
  place = 0 ∨ ∃ before, place = before + 1 ∧ kinds[before]? = some separator

/-- The place where the last statement begins. -/
structure Opening (kinds : List Kind) (place : Nat) : Prop where
  begins : Begins kinds place
  last : separator ∉ kinds.drop place

variable {kinds front : List Kind} {place other : Nat} {reach : Reach}

theorem le_of_begins (begins : Begins kinds place) : place ≤ kinds.length := by
  rcases begins with rfl | ⟨before, rfl, found⟩
  · exact Nat.zero_le _
  · exact (List.getElem?_eq_some_iff.mp found).1

private theorem le_of_opening (one : Opening kinds place) (two : Opening kinds other) :
    other ≤ place := by
  by_contra later
  rcases two.begins with rfl | ⟨before, rfl, found⟩
  · omega
  · refine one.last (List.mem_of_getElem? (i := before - place) ?_)
    rw [List.getElem?_drop, Nat.add_sub_cancel' (by omega)]
    exact found

/-- The last statement begins at one place. -/
theorem eq_of_opening (one : Opening kinds place) (two : Opening kinds other) : place = other :=
  Nat.le_antisymm (le_of_opening two one) (le_of_opening one two)

/-- Behind closed statements the last statement is that of the rest. -/
theorem opening_append (terminated : Terminated front) (opening : Opening kinds place) :
    Opening (front ++ kinds) (front.length + place) where
  begins := by
    rcases opening.begins with rfl | ⟨before, rfl, found⟩
    · rcases List.eq_nil_or_concat front with rfl | ⟨begun, last, rfl⟩
      · exact .inl rfl
      · have closing := getLast?_of_terminated terminated (by simp)
        rw [List.concat_eq_append, List.getLast?_concat] at closing
        exact .inr ⟨begun.length, by simp, by simpa using closing⟩
    · refine .inr ⟨front.length + before, rfl, ?_⟩
      rw [List.getElem?_append_right (Nat.le_add_right ..), Nat.add_sub_cancel_left, found]
  last := by
    rw [List.drop_append, Nat.add_sub_cancel_left, List.drop_eq_nil_of_le (Nat.le_add_right ..)]
    exact opening.last

/-- What is derived for the text, to its end or up to where it breaks off. -/
def whole (kinds : List Kind) : Reach :=
  if Word cypher (.reference start) kinds then .upTo kinds.length else .cut

/-- Where a statement is read to the end of the text, it is the last one. -/
theorem opening_of_reading (begins : Begins kinds place)
    (member : (whole kinds, derivation) ∈ reading cypher kinds .statement place) :
    Opening kinds place := by
  refine ⟨begins, ?_⟩
  have exact : Exact cypher kinds .statement place (reading cypher kinds .statement place) :=
    reading_exact cypher_leftRecursionFree (le_of_begins begins)
  have reached := reaches_iff.mpr ⟨_, member⟩
  unfold whole at reached
  split at reached
  · have word := ((exact.ends _).mp reached).2.2
    rw [← List.length_drop, List.take_length] at word
    exact no_separator_of_statement word
  · obtain ⟨more, -, word⟩ := cypher_awaits_iff.mp (exact.unfinished.mp reached)
    exact fun inside => no_separator_of_statement word (List.mem_append_left _ inside)

theorem whole_append (terminated : Terminated front) (begun : kinds ≠ []) :
    whole (front ++ kinds) = (whole kinds).shift front.length := by
  simp only [whole, word_append_iff terminated begun, List.length_append]
  split <;> rfl

/-- Behind closed statements the last statement is derived as in the rest alone, so many tokens
later. -/
theorem last_append {there : Nat} {last also : Derivation} (terminated : Terminated front)
    (begun : kinds ≠ []) (opening : Opening kinds place)
    (openingThere : Opening (front ++ kinds) there)
    (read : (whole kinds, last) ∈ reading cypher kinds .statement place)
    (readThere :
      (whole (front ++ kinds), also) ∈ reading cypher (front ++ kinds) .statement there) :
    also = last.shift front.length := by
  obtain rfl := eq_of_opening (opening_append terminated opening) openingThere
  rw [reading_shift cypher_leftRecursionFree, whole_append terminated begun] at readThere
  obtain ⟨⟨reach, derivation⟩, kept, same⟩ := List.mem_map.mp readThere
  simp only [Prod.mk.injEq, Reach.shift_inj] at same
  obtain ⟨ends, rfl⟩ := same
  rw [ends] at kept
  rw [eq_of_distinct (reading_distinct ..) read kept]

/-! ## The end of a derivation -/

/-- A statement and those behind it, each with the semicolon in front of it. -/
abbrev chained : Element :=
  .sequence [.reference .statement,
    .repeated (.sequence [.token separator, .reference .statement])]

/-- The derivation ends with that of a statement, which begins where one may. -/
def EndsWith (kinds : List Kind) (reach : Reach) (all : List Derivation) : Prop :=
  ∃ front place last, all = front ++ [last] ∧
    (reach, last) ∈ reading cypher kinds .statement place ∧ Begins kinds place

/-- What the statements of a document leave: they lead up to a position, or the text breaks off in
the last one, or it is a document already and breaks off behind it. -/
private inductive Trails (kinds : List Kind) : Reach → List Derivation → Prop where
  | upTo (ends : EndsWith kinds (.upTo position) all)
    (spans : Spans cypher kinds chained 0 position) : Trails kinds (.upTo position) all
  | inside (ends : EndsWith kinds .cut all) : Trails kinds .cut all
  | behind (document : Word cypher (.reference start) kinds) : Trails kinds .cut all

private theorem trails_reading (begins : Begins kinds place)
    (spans : ∀ stop, Spans cypher kinds (.reference .statement) place stop →
      Spans cypher kinds chained 0 stop)
    (member : (reach, last) ∈ reading cypher kinds .statement place) (before : List Derivation) :
    Trails kinds reach (before ++ [last]) := by
  have ends : EndsWith kinds reach (before ++ [last]) := ⟨before, place, last, rfl, member, begins⟩
  cases reach with
  | cut => exact .inside ends
  | upTo position =>
    refine .upTo ends (spans _ ?_)
    exact (reading_reaches_iff cypher_leftRecursionFree).mp (reaches_iff.mpr ⟨_, member⟩)

/-- What a single token gives. -/
theorem mem_read_token {kind : Kind} {descend : Rule → Nat → Outcomes Derivation}
    {children : List Derivation}
    (member : (reach, children) ∈ (Element.token kind).read kinds descend place) :
    (kinds[place]? = none ∧ reach = .cut ∧ children = []) ∨
      (kinds[place]? = some kind ∧ reach = .upTo (place + 1) ∧ children = [.token place]) := by
  rw [Element.read] at member
  split at member
  · rename_i ended
    cases List.mem_singleton.mp member
    exact .inl ⟨ended, rfl, rfl⟩
  · rename_i found present
    split at member
    · rename_i same
      cases List.mem_singleton.mp member
      exact .inr ⟨same ▸ present, rfl, rfl⟩
    · cases member

/-- Statements that lead up to the end of the text are a document. -/
private theorem document_of_chained (spans : Spans cypher kinds chained 0 place)
    (ended : kinds[place]? = none) : Word cypher (.reference start) kinds := by
  obtain ⟨middle, first, rest⟩ := spans_cons_iff.mp spans
  obtain ⟨stop, repeats, nothing⟩ := spans_cons_iff.mp rest
  cases nothing
  have document : Spans cypher kinds (.reference start) 0 place :=
    .reference rfl (.sequence first (.sequence repeats (.sequence .skipped .empty)))
  obtain ⟨-, within, word⟩ := (spans_iff (Nat.zero_le _)).mp document
  rw [Nat.le_antisymm within (List.getElem?_eq_none_iff.mp ended)] at word
  simpa using word

/-- The first step of a sequence starts with nothing. -/
theorem mem_step_of_mem_extended {step : Nat → Parts} {all : List Derivation}
    (member : (reach, all) ∈ extended step [(.upTo place, [])]) : (reach, all) ∈ step place := by
  rcases mem_extended member with ⟨-, impossible⟩ | ⟨position, none, added, begun, stepped, rfl⟩
  · simp at impossible
  · simp only [List.mem_singleton, Prod.mk.injEq, Reach.upTo.injEq] at begun
    obtain ⟨rfl, rfl⟩ := begun
    exact stepped

/-- What a semicolon and the statement behind it give. -/
theorem mem_read_next {more : List Derivation}
    (member : (reach, more) ∈ (Element.sequence [.token separator, .reference .statement]).read
      kinds (reading cypher kinds) place) :
    (kinds[place]? = none ∧ reach = .cut ∧ more = []) ∨
      (kinds[place]? = some separator ∧ ∃ last,
        (reach, last) ∈ reading cypher kinds .statement (place + 1) ∧
          more = [.token place, last]) := by
  rw [Element.read, Element.readInOrder, Element.readInOrder, Element.readInOrder] at member
  rcases mem_extended member with ⟨rfl, cut⟩ | ⟨middle, semicolon, added, earlier, read, rfl⟩
  · rcases mem_read_token (mem_step_of_mem_extended cut) with ⟨ended, -, rfl⟩ | ⟨-, impossible, -⟩
    · exact .inl ⟨ended, rfl, rfl⟩
    · cases impossible
  · rcases mem_read_token (mem_step_of_mem_extended earlier)
      with ⟨-, impossible, -⟩ | ⟨found, same, rfl⟩
    · cases impossible
    · obtain rfl : middle = place + 1 := by simpa using same
      rw [Element.read, List.mem_map] at read
      obtain ⟨⟨_, last⟩, inside, same⟩ := read
      cases same
      exact .inr ⟨found, last, inside, rfl⟩

private theorem trails_step {before more : List Derivation}
    (trails : Trails kinds (.upTo place) before)
    (member : (reach, more) ∈ (Element.sequence [.token separator, .reference .statement]).read
      kinds (reading cypher kinds) place) : Trails kinds reach (before ++ more) := by
  cases trails with
  | upTo ends spans =>
    rcases mem_read_next member with ⟨ended, rfl, rfl⟩ | ⟨found, last, inside, rfl⟩
    · exact .behind (document_of_chained spans ended)
    · have onward (stop) (next : Spans cypher kinds (.reference .statement) (place + 1) stop) :
          Spans cypher kinds chained 0 stop := by
        obtain ⟨middle, first, rest⟩ := spans_cons_iff.mp spans
        obtain ⟨_, repeats, nothing⟩ := spans_cons_iff.mp rest
        cases nothing
        exact .sequence first (.sequence
          (spans_snoc repeats (.sequence (.token found) (.sequence next .empty))) .empty)
      have ends := trails_reading (.inr ⟨place, rfl, found⟩) onward inside
        (before ++ [.token place])
      rwa [List.append_assoc] at ends

/-- The outcomes of the statements of a document. -/
private theorem trails_of_read {all : List Derivation}
    (member : (reach, all) ∈ chained.read kinds (reading cypher kinds) 0) :
    Trails kinds reach all := by
  rw [Element.read, Element.readInOrder, Element.readInOrder, Element.readInOrder] at member
  have first {reach : Reach} {all : List Derivation}
      (early : (reach, all) ∈ extended (fun start => (Element.reference .statement).read kinds
        (reading cypher kinds) start) [(.upTo 0, [])]) : Trails kinds reach all := by
    have read := mem_step_of_mem_extended early
    rw [Element.read, List.mem_map] at read
    obtain ⟨⟨_, last⟩, inside, same⟩ := read
    cases same
    exact trails_reading (.inl rfl) (fun stop spans => .sequence spans (.sequence .done .empty))
      inside []
  rcases mem_extended member with ⟨rfl, cut⟩ | ⟨position, before, added, earlier, repeated, rfl⟩
  · exact first cut
  · rw [Element.read] at repeated
    refine iterated_induct (fun reach added => Trails kinds reach (before ++ added))
      (fun middle more trails next extra stepped => ?_) _ ?_ ?_ repeated
    · rw [← List.append_assoc]
      exact trails_step trails stepped
    · intro reach none begun
      cases List.mem_singleton.mp begun
      rw [List.append_nil]
      exact first earlier
    · intro place none begun
      cases List.mem_singleton.mp begun
      rw [List.append_nil]
      exact first earlier

/-- A derivation of the text ends with a statement, with the semicolon behind it, or breaks off
behind a document. -/
theorem ends_of_reading {isPartial : Bool} {children : List Derivation}
    (member : (reach, Derivation.node start isPartial children) ∈ reading cypher kinds start 0) :
    EndsWith kinds reach children ∨
      (∃ front place, children = front ++ [.token place] ∧ reach = .upTo (place + 1) ∧
        kinds[place]? = some separator) ∨
      (reach = .cut ∧ Word cypher (.reference start) kinds) := by
  rw [reading_eq cypher_leftRecursionFree rfl, mem_close] at member
  obtain ⟨parts, member, same⟩ := member
  obtain ⟨-, -, rfl⟩ := Derivation.node.inj same
  have ended {all : List Derivation} {reach : Reach} (trails : Trails kinds reach all) :
      EndsWith kinds reach all ∨ (reach = .cut ∧ Word cypher (.reference start) kinds) := by
    cases trails with
    | upTo ends | inside ends => exact .inl ends
    | behind document => exact .inr ⟨rfl, document⟩
  have read : (definition start).read kinds (reading cypher kinds) 0 = extended
      (fun place => (Element.optional (.token separator)).read kinds (reading cypher kinds) place)
      (chained.read kinds (reading cypher kinds) 0) := rfl
  rw [read] at member
  rcases mem_extended member with ⟨rfl, cut⟩ | ⟨position, before, added, earlier, closing, rfl⟩
  · exact (ended (trails_of_read cut)).imp_right .inr
  · have trails := trails_of_read earlier
    rw [Element.read] at closing
    rcases mem_of_mem_merge closing with taken | skipped
    · rcases mem_read_token taken with ⟨atEnd, rfl, rfl⟩ | ⟨found, rfl, rfl⟩
      · cases trails with
        | upTo _ spans => exact .inr (.inr ⟨rfl, document_of_chained spans atEnd⟩)
      · exact .inr (.inl ⟨before, position, rfl, rfl, found⟩)
    · cases List.mem_singleton.mp skipped
      rw [List.append_nil]
      exact (ended trails).imp_right .inr

/-- What is derived for a text that ends inside a statement ends with the derivation of the last
statement, and that covers some token. -/
theorem last_of_reading {isPartial : Bool} {children : List Derivation} (begun : kinds ≠ [])
    (inside : kinds.getLast? ≠ some separator)
    (member : (whole kinds, Derivation.node start isPartial children) ∈
      reading cypher kinds start 0) :
    ∃ front place last, children = front ++ [last] ∧
      (whole kinds, last) ∈ reading cypher kinds .statement place ∧ Opening kinds place ∧
        place < kinds.length := by
  have closing {before : Nat} (atEnd : kinds.length = before + 1) :
      kinds[before]? ≠ some separator := by
    rwa [List.getLast?_eq_getElem?, atEnd, Nat.add_sub_cancel] at inside
  rcases ends_of_reading member with
    ⟨front, place, last, rfl, read, begins⟩ | ⟨front, place, rfl, reach, found⟩ | ⟨cut, document⟩
  · refine ⟨front, place, last, rfl, read, opening_of_reading begins read, ?_⟩
    refine Nat.lt_of_le_of_ne (le_of_begins begins) fun atEnd => ?_
    rcases begins with rfl | ⟨before, rfl, found⟩
    · exact begun (List.eq_nil_of_length_eq_zero atEnd.symm)
    · exact closing atEnd.symm found
  · unfold whole at reach
    split at reach
    · exact absurd found (closing (by simpa using reach))
    · cases reach
  · rw [whole, if_pos document] at cut
    cases cut

/-- What is derived for a text that ends with a semicolon ends with this token. -/
theorem separator_of_reading {isPartial : Bool} {children : List Derivation}
    (closing : kinds.getLast? = some separator)
    (member : (whole kinds, Derivation.node start isPartial children) ∈
      reading cypher kinds start 0) :
    ∃ front place, children = front ++ [.token place] ∧ place < kinds.length := by
  have document := word_of_viable (viable_iff_reading.mpr ?_) closing
  · rcases ends_of_reading member with
      ⟨front, place, last, rfl, read, begins⟩ | ⟨front, place, rfl, -, found⟩ | ⟨cut, -⟩
    · -- The last statement would begin behind the semicolon and be empty.
      have opening := opening_of_reading begins read
      obtain ⟨before, split⟩ := List.getLast?_eq_some_iff.mp closing
      have atEnd : place = kinds.length := by
        refine Nat.le_antisymm (le_of_begins begins) (Nat.le_of_not_lt fun earlier => ?_)
        rw [split, List.length_append, List.length_singleton] at earlier
        refine opening.last ?_
        rw [split, List.drop_append_of_le_length (Nat.le_of_lt_succ earlier)]
        exact List.mem_append_right _ (List.mem_singleton.mpr rfl)
      have reached := reaches_iff.mpr ⟨_, read⟩
      rw [whole, if_pos document, atEnd,
        (reading_exact cypher_leftRecursionFree (Nat.le_refl _)).ends, List.drop_length] at reached
      have nothing := canVanish_of_word cypher_vanishing reached.2.2 List.take_nil
      exact absurd nothing (by decide)
    · exact ⟨front, place, rfl, (List.getElem?_eq_some_iff.mp found).1⟩
    · rw [whole, if_pos document] at cut
      cases cut
  · have reached := reaches_iff.mpr ⟨_, member⟩
    unfold whole at reached
    split at reached
    · exact .inl reached
    · exact .inr reached

end CypherAssist.Grammar
