import CypherAssist.Proofs.Grammar.FollowUp

/-! Paths through a token. A path reads the tokens before the caret, then a token there, and goes on
to the end of a word. Paths through the same token may differ in what is open around it; each of
them goes on with a word of the elements that follow the token where it stands, so the tokens that
must follow it there begin all that is read behind it. -/
namespace CypherAssist.Grammar
open Token

/-- A path through the element that reads these kinds, then a token of the kind asked for, and then
the kinds left. The rules that are open around the token are admitted. -/
inductive Through (grammar : Grammar) (admitted : Rule → Prop) :
    Element → List Kind → Kind → List Kind → Prop where
  | token : Through grammar admitted (.token asked) [] asked []
  | reference (enters : admitted rule) (defined : grammar rule = some element)
    (inside : Through grammar admitted element seen asked left) :
    Through grammar admitted (.reference rule) seen asked left
  | part (front : Word grammar (.sequence before) passed)
    (inside : Through grammar admitted item seen asked left)
    (back : Word grammar (.sequence rest) ahead) :
    Through grammar admitted (.sequence (before ++ item :: rest)) (passed ++ seen) asked
      (left ++ ahead)
  | choice (member : option ∈ options) (inside : Through grammar admitted option seen asked left) :
    Through grammar admitted (.choice options) seen asked left
  | optional (inside : Through grammar admitted item seen asked left) :
    Through grammar admitted (.optional item) seen asked left
  | repeated (front : Word grammar (.repeated item) passed)
    (inside : Through grammar admitted item seen asked left)
    (back : Word grammar (.repeated item) ahead) :
    Through grammar admitted (.repeated item) (passed ++ seen) asked (left ++ ahead)

variable {grammar : Grammar} {admitted : Rule → Prop} {input : List Kind} {first : Rule}
  {stack : List Frame} {follow : List Element} {seen left : List Kind} {kind : Kind}

/-- What a path reads is a word. -/
theorem word_of_through (through : Through grammar admitted element seen kind left) :
    Word grammar element (seen ++ kind :: left) := by
  induction through with
  | token => exact .token
  | reference _ defined _ ih => exact .reference defined ih
  | part front _ back ih => simpa using word_sequence_append front (.sequence ih back)
  | choice member _ ih => exact .choice member ih
  | optional _ ih => exact .taken ih
  | repeated front _ back ih => simpa using word_repeated_append front (.again ih back)

/-- Where a path stands in front of an element, a path through the element comes to the token, and
reads behind it a word of what follows there. -/
theorem stands_of_through (through : Through grammar admitted element seen kind left)
    (stands : Stands grammar input first stack element follow position)
    (placed : seen <+: input.drop position) (behind : Word grammar (.sequence follow) more) :
    ∃ inner others word, (∀ frame ∈ inner, admitted frame.rule) ∧
      Stands grammar input first (inner ++ stack) (.token kind) others (position + seen.length) ∧
      Word grammar (.sequence others) word ∧ word <+: left ++ more := by
  induction through generalizing stack follow position more with
  | token => exact ⟨[], follow, more, List.forall_mem_nil _, stands, behind, List.prefix_rfl⟩
  | @reference rule _ _ _ _ enters defined _ ih =>
    obtain ⟨inner, others, word, opened, stands, derived, reads⟩ :=
      ih (.enter stands defined) placed .empty
    refine ⟨inner ++ [⟨rule, position⟩], others, word, fun frame member => ?_,
      by simpa using stands, derived, reads.trans (by simp)⟩
    rcases List.mem_append.mp member with here | outer
    · exact opened frame here
    · rw [List.mem_singleton.mp outer]
      exact enters
  | part front _ back ih =>
    obtain ⟨passed, placed⟩ := append_prefix_drop.mp placed
    obtain ⟨inner, others, word, opened, stands, derived, reads⟩ :=
      ih (.part stands (spans_of_word front passed)) placed (word_sequence_append back behind)
    exact ⟨inner, others, word, opened, by simpa [Nat.add_assoc] using stands, derived,
      by simpa using reads⟩
  | choice member _ ih => exact ih (.option stands member) placed behind
  | optional _ ih => exact ih (.optional stands) placed behind
  | repeated front _ back ih =>
    obtain ⟨passed, placed⟩ := append_prefix_drop.mp placed
    obtain ⟨inner, others, word, opened, stands, derived, reads⟩ :=
      ih (.repeated stands (spans_of_word front passed)) placed (.sequence back behind)
    exact ⟨inner, others, word, opened, by simpa [Nat.add_assoc] using stands, derived,
      by simpa using reads⟩

/-- A path that stands in front of an element goes on through it, and is completed behind it. -/
theorem through_of_stands (productive : Productive grammar) (defined : (grammar first).isSome)
    (opened : ∀ frame ∈ stack, admitted frame.rule)
    (stands : Stands grammar input first stack element follow position)
    (through : Through grammar admitted element seen kind left)
    (behind : Word grammar (.sequence follow) more) :
    ∃ rest, Through grammar admitted (.reference first) (input.take position ++ seen) kind
      (left ++ more ++ rest) := by
  induction stands generalizing seen left more with
  | start =>
    cases behind
    exact ⟨[], by simpa using through⟩
  | enter outside same ih =>
    cases behind
    obtain ⟨admits, below⟩ := List.forall_mem_cons.mp opened
    have fruitful := (fruitful_of_stands productive defined outside).2
    obtain ⟨ahead, following⟩ := fruitful _ (Element.mem_subelements_self _)
    obtain ⟨rest, whole⟩ := ih below (.reference admits same through) following
    exact ⟨ahead ++ rest, by simpa using whole⟩
  | part _ passed ih =>
    obtain ⟨word, spanned, taken⟩ := take_of_spans passed
    obtain ⟨front, back, rfl, inside, following⟩ := word_sequence_split behind
    obtain ⟨rest, whole⟩ := ih opened (.part spanned through inside) following
    exact ⟨rest, by simpa [taken] using whole⟩
  | option _ member ih => exact ih opened (.choice member through) behind
  | optional _ ih => exact ih opened (.optional through) behind
  | repeated _ passed ih =>
    obtain ⟨word, spanned, taken⟩ := take_of_spans passed
    cases behind with
    | sequence again following =>
      obtain ⟨rest, whole⟩ := ih opened (.repeated spanned through again) following
      exact ⟨rest, by simpa [taken] using whole⟩

/-! ## Tokens that must follow -/

/-- The plain tokens in front begin every word of the elements. -/
theorem plain_prefix {ignored : List Kind} (word : Word grammar (.sequence follow) kinds) :
    ((follow.map (plainKind? ignored)).takeWhile Option.isSome).filterMap id <+: kinds := by
  induction follow generalizing kinds with
  | nil => exact List.nil_prefix
  | cons item rest ih =>
    rw [List.map_cons]
    cases plain : plainKind? ignored item with
    | none => simp
    | some kind =>
      obtain ⟨rfl, -⟩ := plainKind?_eq_some plain
      cases word with
      | sequence head tail =>
        cases head
        simpa using ih tail

/-- A follow-up that may not be left out begins every word of what follows. -/
theorem followUp_prefix {ignored : List Kind} (mandatory : (followUp ignored follow).2 = false)
    (word : Word grammar (.sequence follow) kinds) : (followUp ignored follow).1 <+: kinds := by
  unfold followUp at mandatory ⊢
  split
  · split
    · rename_i item _ _
      have nothing : plainKinds ignored item = [] := by simpa [plainKind?] using mandatory
      rw [nothing]
      exact List.nil_prefix
    · exact List.nil_prefix
  · exact plain_prefix word

end CypherAssist.Grammar
