import CypherAssist.Proofs.Grammar.Backing

/-! What comes behind a candidate fits. The elements that follow a token on its path are read next,
so the kinds reported as its follow-up are a beginning of what they stand for; and in a grammar
without dead ends whatever is open there can be completed. -/
namespace CypherAssist.Grammar
open Token

variable {grammar : Grammar} {input : List Kind} {first : Rule} {stack : List Frame}
  {follow : List Element}

/-! ## Words of parts -/

theorem word_sequence_append (front : Word grammar (.sequence before) word)
    (back : Word grammar (.sequence items) more) :
    Word grammar (.sequence (before ++ items)) (word ++ more) := by
  induction before generalizing word with
  | nil =>
    cases front
    exact back
  | cons item rest ih =>
    cases front with
    | sequence head tail =>
      rw [List.append_assoc]
      exact .sequence head (ih tail)

theorem word_sequence_split (whole : Word grammar (.sequence (before ++ items)) word) :
    ∃ front back, word = front ++ back ∧ Word grammar (.sequence before) front ∧
      Word grammar (.sequence items) back := by
  induction before generalizing word with
  | nil => exact ⟨[], word, rfl, .empty, whole⟩
  | cons item rest ih =>
    cases whole with
    | sequence head tail =>
      obtain ⟨front, back, rfl, passed, ahead⟩ := ih tail
      exact ⟨_, back, (List.append_assoc ..).symm, .sequence head passed, ahead⟩

theorem word_repeated_append (front : Word grammar (.repeated item) word)
    (back : Word grammar (.repeated item) more) : Word grammar (.repeated item) (word ++ more) := by
  generalize same : Element.repeated item = element at front
  induction front with
  | done => cases same; exact back
  | again head _ _ ih =>
    cases same
    rw [List.append_assoc]
    exact .again head (ih rfl)
  | _ => cases same

theorem fruitful_cons (head : Fruitful grammar item) (tail : Fruitful grammar (.sequence rest)) :
    Fruitful grammar (.sequence (item :: rest)) := by
  intro part member
  simp only [Element.subelements, Element.subelementsOfAll, List.mem_cons,
    List.mem_append] at member
  rcases member with rfl | inHead | inTail
  · obtain ⟨word, here⟩ := head _ (Element.mem_subelements_self _)
    obtain ⟨words, there⟩ := tail _ (Element.mem_subelements_self _)
    exact ⟨_, .sequence here there⟩
  · exact head part inHead
  · exact tail part (List.mem_cons_of_mem _ inTail)

theorem fruitful_append (front : Fruitful grammar (.sequence before))
    (back : Fruitful grammar (.sequence items)) :
    Fruitful grammar (.sequence (before ++ items)) := by
  induction before with
  | nil => exact back
  | cons item rest ih =>
    exact fruitful_cons (fruitful_head front) (ih (fruitful_tail front))

theorem fruitful_of_append (whole : Fruitful grammar (.sequence (before ++ items))) :
    Fruitful grammar (.sequence items) := by
  induction before with
  | nil => exact whole
  | cons item rest ih => exact ih (fruitful_tail whole)

/-! ## Completing a path -/

/-- Where a path stands there are no dead ends, neither ahead nor behind that. -/
theorem fruitful_of_stands (productive : Productive grammar) (defined : (grammar first).isSome)
    (stands : Stands grammar input first stack element follow position) :
    Fruitful grammar element ∧ Fruitful grammar (.sequence follow) := by
  have nothing : Fruitful grammar (.sequence []) := by
    intro part member
    rw [List.mem_singleton.mp member]
    exact ⟨[], .empty⟩
  induction stands with
  | start =>
    obtain ⟨element, same⟩ := Option.isSome_iff_exists.mp defined
    obtain ⟨word, derived⟩ := productive _ _ same _ (Element.mem_subelements_self _)
    refine ⟨fun part member => ?_, nothing⟩
    rw [List.mem_singleton.mp member]
    exact ⟨word, .reference same derived⟩
  | enter _ same => exact ⟨productive _ _ same, nothing⟩
  | part _ _ ih =>
    have ahead := fruitful_of_append ih.1
    exact ⟨fruitful_head ahead, fruitful_append (fruitful_tail ahead) ih.2⟩
  | option _ member ih => exact ⟨fruitful_option member ih.1, ih.2⟩
  | optional _ ih => exact ⟨fun part member => ih.1 part (List.mem_cons_of_mem _ member), ih.2⟩
  | repeated _ _ ih =>
    exact ⟨fun part member => ih.1 part (List.mem_cons_of_mem _ member), fruitful_cons ih.1 ih.2⟩

/-- The tokens that a path has passed are those of the text. -/
theorem take_of_spans {origin : Nat} (spans : Spans grammar input element origin position) :
    ∃ word, Word grammar element word ∧ input.take position = input.take origin ++ word := by
  obtain ⟨word, derived, placed, rfl⟩ := word_of_spans spans
  refine ⟨word, derived, ?_⟩
  rw [List.take_add, List.prefix_iff_eq_take.mp placed, List.length_take, List.length_drop]
  congr 1
  have short := placed.length_le
  rw [List.length_drop] at short
  rw [Nat.min_eq_left short]

/-- A word of what a path has ahead can be completed to a word of the whole. -/
theorem word_of_stands (productive : Productive grammar) (defined : (grammar first).isSome)
    (stands : Stands grammar input first stack element follow position)
    (word : Word grammar (.sequence (element :: follow)) ahead) :
    ∃ rest, Word grammar (.reference first) (input.take position ++ ahead ++ rest) := by
  induction stands generalizing ahead with
  | start =>
    cases word with
    | sequence whole nothing =>
      cases nothing
      exact ⟨[], by simpa using whole⟩
  | @enter _ _ follow _ _ outside same ih =>
    cases word with
    | sequence body nothing =>
      cases nothing
      have fruitful := (fruitful_of_stands productive defined outside).2
      obtain ⟨behind, following⟩ := fruitful _ (Element.mem_subelements_self _)
      obtain ⟨rest, whole⟩ := ih (.sequence (.reference same body) following)
      exact ⟨behind ++ rest, by simpa using whole⟩
  | @part _ before item rest follow origin _ _ passed ih =>
    obtain ⟨seen, spanned, taken⟩ := take_of_spans passed
    have split : item :: (rest ++ follow) = (item :: rest) ++ follow := rfl
    rw [split] at word
    obtain ⟨here, behind, rfl, inside, following⟩ := word_sequence_split word
    obtain ⟨more, whole⟩ := ih (.sequence (word_sequence_append spanned inside) following)
    exact ⟨more, by simpa [taken] using whole⟩
  | option _ member ih =>
    cases word with
    | sequence chosen following => exact ih (.sequence (.choice member chosen) following)
  | optional _ ih =>
    cases word with
    | sequence inside following => exact ih (.sequence (.taken inside) following)
  | repeated _ passed ih =>
    obtain ⟨seen, spanned, taken⟩ := take_of_spans passed
    cases word with
    | sequence inside others =>
      cases others with
      | sequence again following =>
        obtain ⟨more, whole⟩ :=
          ih (.sequence (word_repeated_append spanned (.again inside again)) following)
        exact ⟨more, by simpa [taken] using whole⟩

/-! ## Follow-ups -/

theorem plainKind?_eq_some {ignored : List Kind} {element : Element} {kind : Kind}
    (plain : plainKind? ignored element = some kind) : element = .token kind ∧ kind ∉ ignored := by
  cases element with
  | token found =>
    simp only [plainKind?] at plain
    split at plain
    · cases plain
    · rename_i wanted
      cases plain
      exact ⟨rfl, by simpa using wanted⟩
  | _ => cases plain

theorem word_of_plain {ignored : List Kind} {items : List Element} {kinds : List Kind}
    (plain : items.mapM (plainKind? ignored) = some kinds) :
    Word grammar (.sequence items) kinds ∧ ∀ kind ∈ kinds, kind ∉ ignored := by
  induction items generalizing kinds with
  | nil =>
    cases plain
    exact ⟨.empty, nofun⟩
  | cons item rest ih =>
    simp only [List.mapM_cons, Option.bind_eq_bind, Option.bind_eq_some_iff, Option.pure_def,
      Option.some.injEq] at plain
    obtain ⟨kind, here, others, later, rfl⟩ := plain
    obtain ⟨rfl, wanted⟩ := plainKind?_eq_some here
    obtain ⟨words, allWanted⟩ := ih later
    exact ⟨.sequence .token words, List.forall_mem_cons.mpr ⟨wanted, allWanted⟩⟩

/-- The plain tokens of an option are those of a sequence of elements that it stands for. -/
theorem exists_items_of_plainKinds (grammar : Grammar) (ignored : List Kind) (item : Element) :
    ∃ items, plainKinds ignored item = (items.mapM (plainKind? ignored)).getD [] ∧
      ∀ word, Word grammar (.sequence items) word → Word grammar item word := by
  have single (word) (derived : Word grammar (.sequence [item]) word) : Word grammar item word := by
    cases derived with
    | sequence here nothing =>
      cases nothing
      rwa [List.append_nil]
  cases item with
  | sequence items => exact ⟨items, rfl, fun _ derived => derived⟩
  | _ => exact ⟨_, rfl, single⟩

theorem word_of_plainKinds (grammar : Grammar) (ignored : List Kind) (item : Element) :
    (plainKinds ignored item = [] ∨ Word grammar item (plainKinds ignored item)) ∧
      ∀ kind ∈ plainKinds ignored item, kind ∉ ignored := by
  obtain ⟨items, same, stands⟩ := exists_items_of_plainKinds grammar ignored item
  rw [same]
  cases found : items.mapM (plainKind? ignored) with
  | none => exact ⟨.inl rfl, nofun⟩
  | some kinds =>
    obtain ⟨word, wanted⟩ := word_of_plain found
    exact ⟨.inr (stands _ word), wanted⟩

/-- The tokens that must follow begin what follows. -/
theorem word_of_mandatory {ignored : List Kind} (fruitful : Fruitful grammar (.sequence follow)) :
    ∃ rest, Word grammar (.sequence follow)
      (((follow.map (plainKind? ignored)).takeWhile Option.isSome).filterMap id ++ rest) := by
  induction follow with
  | nil => exact ⟨[], .empty⟩
  | cons item others ih =>
    rw [List.map_cons]
    cases plain : plainKind? ignored item with
    | none =>
      obtain ⟨word, derived⟩ := fruitful _ (Element.mem_subelements_self _)
      exact ⟨word, by simpa using derived⟩
    | some kind =>
      obtain ⟨rfl, -⟩ := plainKind?_eq_some plain
      obtain ⟨rest, words⟩ := ih (fruitful_tail fruitful)
      exact ⟨rest, by simpa using Word.sequence .token words⟩

/-- The follow-up of a token begins what follows it, and nothing in it is ignored. -/
theorem word_of_followUp (ignored : List Kind) (fruitful : Fruitful grammar (.sequence follow)) :
    (∃ rest, Word grammar (.sequence follow) ((followUp ignored follow).1 ++ rest)) ∧
      ∀ kind ∈ (followUp ignored follow).1, kind ∉ ignored := by
  obtain ⟨word, derived⟩ := fruitful _ (Element.mem_subelements_self _)
  unfold followUp
  split
  · split
    · rename_i item others _
      obtain ⟨listed, wanted⟩ := word_of_plainKinds grammar ignored item
      refine ⟨?_, wanted⟩
      obtain ⟨behind, following⟩ := fruitful_tail fruitful _ (Element.mem_subelements_self _)
      rcases listed with none | inside
      · exact ⟨word, by simpa [none] using derived⟩
      · exact ⟨behind, .sequence (.taken inside) following⟩
    · exact ⟨⟨word, derived⟩, nofun⟩
  · refine ⟨word_of_mandatory fruitful, fun kind member => ?_⟩
    obtain ⟨_, inside, rfl⟩ := List.mem_filterMap.mp member
    obtain ⟨item, -, plain⟩ := List.mem_map.mp ((List.takeWhile_sublist _).subset inside)
    exact (plainKind?_eq_some plain).2

/-- In a grammar without dead ends, a candidate and its follow-up go on from the tokens before the
caret, and nothing in them is ignored. -/
theorem viable_of_candidate {caret : Caret} {candidates : Candidates} {candidate : TokenCandidate}
    (productive : Productive grammar) (defined : (grammar first).isSome)
    (backed : Backed grammar caret first candidates) (member : candidate ∈ candidates.tokens) :
    Viable grammar first (caret.before ++ candidate.kind :: candidate.followUp) ∧
      ∀ kind ∈ candidate.kind :: candidate.followUp, kind ∉ caret.ignored := by
  obtain ⟨wanted, stack, follow, -, stands, follows⟩ := backed.tokens candidate member
  have fruitful := (fruitful_of_stands productive defined stands).2
  obtain ⟨⟨behind, word⟩, allWanted⟩ := word_of_followUp caret.ignored fruitful
  rw [← follows] at word allWanted
  obtain ⟨rest, whole⟩ := word_of_stands productive defined stands (.sequence .token word)
  rw [← caret.length_before, List.take_length] at whole
  exact ⟨⟨behind ++ rest, by simpa using whole⟩, List.forall_mem_cons.mpr ⟨wanted, allWanted⟩⟩

end CypherAssist.Grammar
