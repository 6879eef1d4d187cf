import CypherAssist.Proofs.Grammar.LastStatement
import CypherAssist.Proofs.Grammar.Locality

/-! Documents joined by a semicolon. Semicolons stand between statements only, and the derivation
kept for a statement is the same wherever it stands; so what is derived for the joined documents is
what is derived for each of them, with the semicolon between. -/
namespace CypherAssist.Grammar
open Token Outcomes Parts

/-- Statements derived one behind the other, each but the first behind a semicolon. They lead up to
a place. -/
inductive Chained (kinds : List Kind) : Nat → List Derivation → Prop where
  | first (read : (.upTo place, statement) ∈ reading cypher kinds .statement 0) :
    Chained kinds place [statement]
  | next (before : Chained kinds place children) (closed : kinds[place]? = some separator)
    (read : (.upTo stop, statement) ∈ reading cypher kinds .statement (place + 1)) :
    Chained kinds stop (children ++ [.token place, statement])

/-- What a document consists of: statements that lead up to its end or to the semicolon there. -/
inductive Listed (kinds : List Kind) : List Derivation → Prop where
  | unclosed (statements : Chained kinds kinds.length children) : Listed kinds children
  | closed (statements : Chained kinds place children) (closing : kinds[place]? = some separator)
    (ended : place + 1 = kinds.length) : Listed kinds (children ++ [.token place])

variable {kinds first second more : List Kind} {place stop : Nat} {children : List Derivation}

/-! ## What is derived for a document -/

private theorem chained_of_read (member : (.upTo stop, children) ∈
    chained.read kinds (reading cypher kinds) 0) : Chained kinds stop children := by
  rw [Element.read, Element.readInOrder, Element.readInOrder, Element.readInOrder] at member
  rcases mem_extended member with ⟨impossible, -⟩ | ⟨middle, before, added, earlier, repeated, rfl⟩
  · cases impossible
  · have read := mem_step_of_mem_extended earlier
    rw [Element.read, List.mem_map] at read
    obtain ⟨⟨_, statement⟩, inside, same⟩ := read
    cases same
    -- each round of the repetition takes a semicolon and the statement behind it
    have grown : ∀ place, Reach.upTo stop = .upTo place →
        Chained kinds place ([statement] ++ added) := by
      rw [Element.read] at repeated
      refine iterated_induct (fun reach added => ∀ place, reach = .upTo place →
        Chained kinds place ([statement] ++ added)) ?_ _ ?_ ?_ repeated
      · rintro place children chain reach added stepped stop rfl
        rcases mem_read_next stepped with ⟨-, impossible, -⟩ | ⟨closed, next, read, rfl⟩
        · cases impossible
        · rw [← List.append_assoc]
          exact .next (chain place rfl) closed read
      · rintro _ _ begun place rfl
        cases List.mem_singleton.mp begun
        exact .first inside
      · rintro _ _ begun place same
        cases List.mem_singleton.mp begun
        cases same
        exact .first inside
    exact grown stop rfl

/-- What is derived for a document is a list of statements. -/
theorem listed_of_reading {isPartial : Bool}
    (member : (.upTo kinds.length, Derivation.node start isPartial children) ∈
      reading cypher kinds start 0) : Listed kinds children := by
  rw [reading_eq cypher_leftRecursionFree rfl, mem_close] at member
  obtain ⟨parts, member, same⟩ := member
  obtain ⟨-, -, rfl⟩ := Derivation.node.inj same
  have read : (definition start).read kinds (reading cypher kinds) 0 = extended
      (fun place => (Element.optional (.token separator)).read kinds (reading cypher kinds) place)
      (chained.read kinds (reading cypher kinds) 0) := rfl
  rw [read] at member
  rcases mem_extended member with ⟨impossible, -⟩ | ⟨place, before, added, earlier, closing, rfl⟩
  · cases impossible
  · have statements := chained_of_read earlier
    rw [Element.read] at closing
    rcases mem_of_mem_merge closing with taken | skipped
    · rcases mem_read_token taken with ⟨-, impossible, -⟩ | ⟨found, ended, rfl⟩
      · cases impossible
      · exact .closed statements found (Reach.upTo.inj ended).symm
    · cases List.mem_singleton.mp skipped
      rw [List.append_nil]
      exact .unclosed statements

/-! ## One list for each document -/

/-- A statement derived up to a place spans some tokens, none of them a semicolon. -/
theorem statement_of_reading
    (read : (.upTo stop, derivation) ∈ reading cypher kinds .statement place) :
    place < stop ∧ stop ≤ kinds.length ∧
      ∀ inside, place ≤ inside → inside < stop → kinds[inside]? ≠ some separator := by
  have spans := (reading_reaches_iff cypher_leftRecursionFree).mp (reaches_iff.mpr ⟨_, read⟩)
  have some : place < stop ∧ stop ≤ kinds.length := by
    rcases spans_le spans with rfl | moved
    · obtain ⟨word, derived, -, same⟩ := word_of_spans spans
      have nothing := canVanish_of_word cypher_vanishing derived
        (List.eq_nil_of_length_eq_zero (by omega))
      exact absurd nothing (by decide)
    · exact moved
  exact ⟨some.1, some.2, fun inside low high => no_separator_of_spans spans low high⟩

/-- The last of the statements, with nothing that separates in it. -/
theorem last_of_chained (statements : Chained kinds stop children) :
    0 < stop ∧ stop ≤ kinds.length ∧ kinds[stop - 1]? ≠ some separator := by
  cases statements with
  | first read =>
    obtain ⟨some, within, plain⟩ := statement_of_reading read
    exact ⟨some, within, plain _ (Nat.zero_le _) (by omega)⟩
  | next _ _ read =>
    obtain ⟨some, within, plain⟩ := statement_of_reading read
    exact ⟨by omega, within, plain _ (by omega) (by omega)⟩

/-- The statements that lead up to a place are determined. -/
theorem eq_of_chained {one two : List Derivation} (statements : Chained kinds stop one)
    (others : Chained kinds stop two) : one = two := by
  induction statements generalizing two with
  | first read =>
    cases others with
    | first other => rw [eq_of_distinct (reading_distinct ..) read other]
    | next before closed other =>
      obtain ⟨some, -, -⟩ := statement_of_reading other
      exact absurd closed ((statement_of_reading read).2.2 _ (Nat.zero_le _) (by omega))
  | @next place children stop statement before closed read ih =>
    have here := statement_of_reading read
    cases others with
    | first other =>
      exact absurd closed ((statement_of_reading other).2.2 _ (Nat.zero_le _) (by omega))
    | @next also _ _ _ earlier closedToo other =>
      have there := statement_of_reading other
      rcases Nat.lt_trichotomy place also with early | rfl | late
      · exact absurd closedToo (here.2.2 _ early (by omega))
      · rw [ih earlier, eq_of_distinct (reading_distinct ..) read other]
      · exact absurd closed (there.2.2 _ late (by omega))

/-- A document is one list of statements. -/
theorem eq_of_listed {one two : List Derivation} (listed : Listed kinds one)
    (also : Listed kinds two) : one = two := by
  cases listed with
  | unclosed statements =>
    cases also with
    | unclosed others => exact eq_of_chained statements others
    | @closed place _ others closing ended =>
      have last := (last_of_chained statements).2.2
      rw [← ended] at last
      exact absurd closing last
  | @closed place _ statements closing ended =>
    cases also with
    | unclosed others =>
      have last := (last_of_chained others).2.2
      rw [← ended] at last
      exact absurd closing last
    | closed others closing also =>
      obtain rfl := Nat.succ.inj (ended.trans also.symm)
      rw [eq_of_chained statements others]

/-! ## Joining -/

theorem chained_append (statements : Chained kinds stop children) (more : List Kind) :
    Chained (kinds ++ more) stop children := by
  induction statements with
  | first read =>
    exact .first ((mem_reading_append cypher_leftRecursionFree (statement_of_reading read).2.1).mpr
      read)
  | next before closed read ih =>
    have inside := (List.getElem?_eq_some_iff.mp closed).1
    refine .next ih ((List.getElem?_append_left inside).trans closed) ?_
    exact (mem_reading_append cypher_leftRecursionFree (statement_of_reading read).2.1).mpr read

/-- Statements behind a document and its semicolon go on from those of the document. -/
theorem chained_behind {statements others : List Derivation}
    (before : Chained first first.length statements) (behind : Chained second stop others) :
    Chained (first ++ [separator] ++ second) (first.length + 1 + stop)
      (statements ++ .token first.length :: Derivation.shiftAll (first.length + 1) others) := by
  have length : (first ++ [separator]).length = first.length + 1 := by simp
  have moved {place stop : Nat} {statement : Derivation}
      (read : (.upTo stop, statement) ∈ reading cypher second .statement place) :
      (.upTo (first.length + 1 + stop), statement.shift (first.length + 1)) ∈
        reading cypher (first ++ [separator] ++ second) .statement (first.length + 1 + place) := by
    rw [← length]
    exact mem_reading_behind cypher_leftRecursionFree _ read
  induction behind with
  | first read =>
    have here := chained_append before ([separator] ++ second)
    have onward := moved read
    rw [← List.append_assoc] at here
    rw [Nat.add_zero] at onward
    exact .next here (by simp) onward
  | @next place _ _ _ _ closed read ih =>
    have there : (first ++ [separator] ++ second)[first.length + 1 + place]? = some separator := by
      rw [← length, List.getElem?_append_right (Nat.le_add_right ..), Nat.add_sub_cancel_left,
        closed]
    have onward := moved read
    rw [← Nat.add_assoc] at onward
    rw [Derivation.shiftAll_append, ← List.cons_append, ← List.append_assoc]
    exact .next ih there onward

theorem listed_behind {statements others : List Derivation} (before : Listed first statements)
    (inside : first.getLast? ≠ some separator) (behind : Listed second others) :
    Listed (first ++ [separator] ++ second)
      (statements ++ .token first.length :: Derivation.shiftAll (first.length + 1) others) := by
  have length : (first ++ [separator] ++ second).length = first.length + 1 + second.length := by
    simp [Nat.add_assoc, Nat.add_comm 1]
  cases before with
  | closed _ closing ended =>
    rw [List.getLast?_eq_getElem?, ← ended] at inside
    exact absurd closing inside
  | unclosed before =>
    cases behind with
    | unclosed behind =>
      have all := chained_behind before behind
      rw [← length] at all
      exact .unclosed all
    | @closed place children behind closing ended =>
      have last : (first ++ [separator] ++ second)[first.length + 1 + place]? = some separator := by
        rw [List.getElem?_append_right (by simp), ← closing]
        congr 1
        simp
      rw [Derivation.shiftAll_append, ← List.cons_append, ← List.append_assoc]
      exact .closed (chained_behind before behind) last (by rw [length, ← ended]; rfl)

/-- What is derived for two documents joined by a semicolon is what is derived for each of them,
that of the second so many tokens later. -/
theorem reading_joined {one two three : Bool} {statements others all : List Derivation}
    (before : (.upTo first.length, Derivation.node start one statements) ∈
      reading cypher first start 0)
    (inside : first.getLast? ≠ some separator)
    (behind : (.upTo second.length, Derivation.node start two others) ∈
      reading cypher second start 0)
    (joined : (.upTo (first ++ [separator] ++ second).length, Derivation.node start three all) ∈
      reading cypher (first ++ [separator] ++ second) start 0) :
    all = statements ++ .token first.length :: Derivation.shiftAll (first.length + 1) others :=
  eq_of_listed (listed_of_reading joined)
    (listed_behind (listed_of_reading before) inside (listed_of_reading behind))

end CypherAssist.Grammar
