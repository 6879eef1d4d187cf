import CypherAssist.Proofs.Grammar.Lockstep

/-! Statement by statement. The walk of a document goes on behind one end of a statement at most,
the one in front of a semicolon. It finds nothing in statements that are closed before the caret,
so behind them it finds what it finds in the rest alone, so many tokens later. -/
namespace CypherAssist.Grammar
open Token (Kind Cursor)

/-- Whether a semicolon before the caret stands at a position. -/
def Caret.closes (caret : Caret) (position : Nat) : Bool :=
  caret.before[position]? = some separator

/-- The rules that are open around a statement. -/
abbrev inDocument : List Frame := [⟨start, 0⟩]

/-- A walk of one statement after the other, each behind the semicolon of the one before. -/
inductive Chain (caret : Caret) (depth : Nat) : Nat → WalkState → WalkState → Prop where
  | last (ran : walkRule cypher caret depth .statement place inDocument state = .ok (ends, after))
    (alone : ends.find? caret.closes = none) : Chain caret depth place state after
  | more (ran : walkRule cypher caret depth .statement place inDocument state = .ok (ends, after))
    (closed : ends.find? caret.closes = some stop)
    (others : Chain caret depth (stop + 1) after final) : Chain caret depth place state final

/-- Ascending positions, of which none but the last is in front of a semicolon. -/
structure LastCloses (caret : Caret) (ends : List Nat) : Prop where
  ascending : ends.Pairwise (· < ·)
  last : ∀ stop ∈ ends, caret.closes stop → ∀ other ∈ ends, other ≤ stop

variable {caret : Caret} {ends : List Nat} {state after final : WalkState} {depth : Nat}
  {descend : Rule → Nat → List Frame → WalkM (List Nat)}

theorem before_of_closes (closes : caret.closes position) :
    caret.before[position]? = some separator := by
  simpa [Caret.closes] using closes

theorem lt_of_closes (closes : caret.closes position) : position < caret.position := by
  rw [← caret.length_before]
  exact (List.getElem?_eq_some_iff.mp (before_of_closes closes)).1

/-! ## The ends of a statement -/

/-- A statement does not go on behind a semicolon. -/
theorem lastCloses_of_statement
    (lists : Lists ends (Spans cypher caret.before (.reference .statement) place)) :
    LastCloses caret ends := by
  refine ⟨lists.ascending, fun stop member closes other also => Nat.le_of_not_lt fun beyond => ?_⟩
  have low : place ≤ stop := (spans_le ((lists.mem_iff stop).mp member)).elim Nat.le_of_eq
    fun moved => Nat.le_of_lt moved.1
  exact no_separator_of_spans ((lists.mem_iff other).mp also) low beyond (before_of_closes closes)

theorem pairwise_of_lastCloses (lastCloses : LastCloses caret ends) :
    ends.Pairwise fun one other => caret.closes one → caret.closes other = false := by
  refine lastCloses.ascending.imp_of_mem fun member also less closes => ?_
  by_contra
  exact absurd (lastCloses.last _ member closes _ also) (Nat.not_le_of_lt less)

/-- The end in front of a semicolon is the one that is found. -/
theorem find?_of_lastCloses (lastCloses : LastCloses caret ends) (member : stop ∈ ends)
    (closes : caret.closes stop) : ends.find? caret.closes = some stop := by
  cases found : ends.find? caret.closes with
  | none => exact absurd closes (List.find?_eq_none.mp found _ member)
  | some other =>
    have also := List.mem_of_find?_eq_some found
    exact congrArg some (Nat.le_antisymm (lastCloses.last _ member closes other also)
      (lastCloses.last other also (List.find?_some found) _ member))

theorem find?_of_open (idle : ∀ stop ∈ ends, caret.closes stop = false) :
    ends.find? caret.closes = none :=
  List.find?_eq_none.mpr fun stop member => by simp [idle stop member]

/-- The walk of a statement arrives at its ends, and leaves the records settled. -/
theorem lists_of_statement (discreet : Discreet cypher caret) (plain : caret.prefers start = false)
    (settled : Settled cypher caret {(start, 0)} state) (inside : place ≤ caret.position)
    (ran : walkRule cypher caret depth .statement place inDocument state = .ok (ends, after)) :
    Lists ends (Spans cypher caret.before (.reference .statement) place) ∧
      Settled cypher caret {(start, 0)} after := by
  have clear : caret.Clear inDocument := by
    intro frame member
    cases List.mem_singleton.mp member
    simpa [Caret.Admits] using plain
  have called : Calls cypher caret.before.length (definition start) 0 .statement place := by
    refine ⟨by decide, ?_⟩
    rw [caret.length_before]
    rcases Nat.eq_zero_or_pos place with rfl | later
    · exact .inr ⟨rfl, .head .reference⟩
    · exact .inl ⟨later, inside⟩
  have walks := walkRule_walks cypher_leftRecursionFree discreet depth .statement place inDocument
    {(start, 0)} inside (.inl clear) (fun other member => by
      cases member
      exact burden_lt_of_calls cypher_leftRecursionFree rfl called) state settled
  simp only [ran] at walks
  exact ⟨walks.1, walks.2.1⟩

/-! ## Behind a statement -/

/-- From a single position the first part of a sequence is walked once. -/
private theorem walkInOrder_single {stack : List Frame} {follow : List Element} :
    Element.walkInOrder caret descend (item :: rest) [position] stack follow =
      item.walk caret descend position stack (rest ++ follow) >>= fun reached =>
        Element.walkInOrder caret descend rest reached stack follow := by
  rw [Element.walkInOrder]
  simp [union]

/-- A semicolon is never a candidate, and is passed where it stands. -/
theorem walk_separator (plain : caret.prefers start = false)
    (ignored : caret.ignored.contains separator) (position : Nat) (follow : List Element) :
    (Element.token separator).walk caret descend position inDocument follow =
      pure (if caret.closes position then [position + 1] else []) := by
  have short := caret.length_before
  rw [Element.walk]
  split
  · rename_i here
    have absent : caret.closes position = false := by
      simp [Caret.closes, here, ← short]
    rw [absent, if_neg (by simp)]
    funext state
    have unchanged : state.report caret separator inDocument follow = state := by
      unfold WalkState.report
      simp [plain, List.contains_iff_mem.mp ignored]
    exact congrArg (fun state => Except.ok ([], state)) unchanged
  · rename_i elsewhere
    rcases Nat.lt_or_ge position caret.position with earlier | later
    · rw [← caret.getElem?_before earlier]
      by_cases found : caret.before[position]? = some separator <;> simp [Caret.closes, found]
    · have beyond : caret.tokens.size ≤ position := by
        rw [Caret.position] at later elsewhere
        omega
      have absent : caret.closes position = false := by
        simp [Caret.closes, List.getElem?_eq_none (Nat.le_trans (Nat.le_of_eq short) later)]
      simp [absent, Array.getElem?_eq_none beyond]

/-- The walk of one more statement: from a position in front of a semicolon, the one behind it. -/
def next (caret : Caret) (descend : Rule → Nat → List Frame → WalkM (List Nat))
    (position : Nat) : WalkM (List Nat) :=
  if caret.closes position then descend .statement (position + 1) inDocument else pure []

theorem union_nil (positions : List Nat) : union positions [] = positions := by
  induction positions with
  | nil => rfl
  | cons first rest ih => simp [union, ih]

theorem walk_next (plain : caret.prefers start = false)
    (ignored : caret.ignored.contains separator) (position : Nat) (follow : List Element) :
    (Element.sequence [.token separator, .reference .statement]).walk caret descend position
      inDocument follow = next caret descend position := by
  rw [Element.walk]
  simp only [Element.walkInOrder, List.foldlM_cons, List.foldlM_nil, bind_pure,
    walk_separator plain ignored, pure_bind, next]
  split <;> simp [union, Element.walk]

theorem walk_statements (plain : caret.prefers start = false)
    (ignored : caret.ignored.contains separator) (position : Nat) (follow : List Element) :
    (Element.repeated (.sequence [.token separator, .reference .statement])).walk caret descend
      position inDocument follow =
        reachAll (next caret descend) (caret.tokens.size + 1) [position] [position] := by
  rw [Element.walk]
  simp only [walk_next plain ignored]

/-- Of the positions where a statement ends, one leads on at most. -/
private theorem each_next {positions : List Nat}
    (lone : positions.Pairwise fun one other => caret.closes one → caret.closes other = false)
    (found : List Nat) :
    positions.foldlM (fun found place => do return union found (← next caret descend place)) found =
      match positions.find? caret.closes with
      | some stop => do return union found (← descend .statement (stop + 1) inDocument)
      | none => pure found := by
  induction positions generalizing found with
  | nil => rfl
  | cons position rest ih =>
    obtain ⟨here, others⟩ := List.pairwise_cons.mp lone
    rw [List.foldlM_cons, List.find?_cons]
    cases closes : caret.closes position with
    | true =>
      have alone := find?_of_open fun other member => here other member closes
      have goes : next caret descend position = descend .statement (position + 1) inDocument :=
        if_pos closes
      simp only [goes, ih others, alone]
      exact bind_pure _
    | false =>
      have stays : next caret descend position = pure [] := if_neg (by simp [closes])
      simp only [stays, pure_bind, union_nil, ih others]

/-- From positions that are not in front of a semicolon no statement begins. -/
private theorem reachAll_next_of_none {frontier : List Nat}
    (alone : frontier.find? caret.closes = none) (rounds : Nat) (reached : List Nat) :
    reachAll (next caret descend) rounds reached frontier = pure reached := by
  have idle : ∀ position ∈ frontier, caret.closes position = false := by
    simpa using List.find?_eq_none.mp alone
  cases rounds with
  | zero => rfl
  | succ rounds =>
    cases frontier with
    | nil => rfl
    | cons position others =>
      have lone : (position :: others).Pairwise fun one other =>
          caret.closes one → caret.closes other = false :=
        List.pairwise_of_forall_mem_list fun _ _ other member _ => idle other member
      rw [reachAll, each_next lone, alone, pure_bind]
      cases rounds <;> simp [reachAll, union_nil]

/-- Behind all that has been reached each position is new. -/
private theorem filter_fresh {reached found : List Nat} {stop : Nat}
    (low : ∀ place ∈ reached, place ≤ stop) (high : ∀ place ∈ found, stop < place) :
    (union [] found).filter (fun place => !reached.contains place) = found := by
  refine List.filter_eq_self.mpr fun place member => ?_
  have new : place ∉ reached := fun old =>
    absurd (low place old) (Nat.not_le_of_lt (high place member))
  simpa using new

/-- Where a walk goes on from the ends of a statement. -/
private def Onward (caret : Caret) (depth : Nat) (ends : List Nat) (state final : WalkState) :
    Prop :=
  match ends.find? caret.closes with
  | some stop => Chain caret depth (stop + 1) state final
  | none => final = state

private theorem chain_iff :
    Chain caret depth place state final ↔ ∃ ends after,
      walkRule cypher caret depth .statement place inDocument state = .ok (ends, after) ∧
        Onward caret depth ends after final := by
  unfold Onward
  constructor
  · intro chain
    cases chain with
    | last ran alone => exact ⟨_, _, ran, by simp only [alone]⟩
    | more ran closed others => exact ⟨_, _, ran, by simpa only [closed] using others⟩
  · rintro ⟨ends, after, ran, onward⟩
    split at onward
    · rename_i stop closed
      exact .more ran closed onward
    · rename_i alone
      exact onward ▸ .last ran alone

/-- A repetition walks one statement after the other. -/
private theorem onward_of_reachAll (discreet : Discreet cypher caret)
    (plain : caret.prefers start = false) (rounds : Nat) {reached frontier all : List Nat}
    (settled : Settled cypher caret {(start, 0)} state) (front : LastCloses caret frontier)
    (behind : ∀ stop ∈ frontier, caret.closes stop → ∀ other ∈ reached, other ≤ stop)
    (enough : ∀ stop ∈ frontier, caret.closes stop → caret.position ≤ stop + rounds)
    (ran : reachAll (next caret (walkRule cypher caret depth)) rounds reached frontier state =
      .ok (all, after)) :
    Onward caret depth frontier state after := by
  induction rounds generalizing reached frontier state with
  | zero =>
    have alone : frontier.find? caret.closes = none := by
      refine List.find?_eq_none.mpr fun stop member closes => ?_
      have later := enough stop member closes
      have earlier := lt_of_closes closes
      omega
    cases ran
    simp [Onward, alone]
  | succ rounds ih =>
    cases closed : frontier.find? caret.closes with
    | none =>
      rw [reachAll_next_of_none closed] at ran
      cases ran
      simp [Onward, closed]
    | some stop =>
      have member := List.mem_of_find?_eq_some closed
      have closes := List.find?_some closed
      have inside := lt_of_closes closes
      simp only [Onward, closed]
      cases frontier with
      | nil => cases member
      | cons position others =>
        rw [reachAll, each_next (pairwise_of_lastCloses front), closed] at ran
        obtain ⟨found, middle, round, ran⟩ := exists_of_bind_eq_ok ran
        obtain ⟨more, middle, walked, same⟩ := exists_of_bind_eq_ok round
        cases same
        obtain ⟨lists, kept⟩ := lists_of_statement discreet plain settled inside walked
        -- Every end of the statement lies behind all that has been reached.
        have beyond (place) (also : place ∈ more) : stop < place := by
          have moved := spans_le ((lists.mem_iff place).mp also)
          omega
        rw [filter_fresh (behind stop member closes) beyond] at ran
        have one := lastCloses_of_statement lists
        refine chain_iff.mpr ⟨more, middle, walked, ih kept one ?_ ?_ ran⟩
        · intro last also closing other reachedOther
          rcases mem_of_mem_union reachedOther with early | late
          · have low := behind stop member closes other early
            have high := beyond last also
            omega
          · exact one.last last also closing other late
        · intro last also _
          have bound := enough stop member closes
          have high := beyond last also
          omega

/-! ## A document -/

/-- Steps of which none but those in front of a semicolon change the state. -/
private theorem foldlM_closes {step : Nat → WalkM (List Nat)} {positions : List Nat}
    (lone : positions.Pairwise fun one other => caret.closes one → caret.closes other = false)
    (idle : ∀ place, caret.closes place = false → ∀ begun,
      Keeps (· = begun) (step place) fun _ => True)
    {found all : List Nat}
    (ran : (positions.foldlM (fun found place => do return union found (← step place)) found :
      WalkM (List Nat)) state = .ok (all, after)) :
    match positions.find? caret.closes with
    | some stop => ∃ more, step stop state = .ok (more, after)
    | none => after = state := by
  induction positions generalizing found state with
  | nil =>
    cases ran
    rfl
  | cons position rest ih =>
    obtain ⟨here, others⟩ := List.pairwise_cons.mp lone
    rw [List.foldlM_cons] at ran
    obtain ⟨known, middle, first, ran⟩ := exists_of_bind_eq_ok ran
    obtain ⟨more, middle, stepped, same⟩ := exists_of_bind_eq_ok first
    cases same
    have onward := ih others ran
    rw [List.find?_cons]
    cases closes : caret.closes position with
    | true =>
      have alone := find?_of_open fun other member => here other member closes
      rw [alone] at onward
      exact ⟨more, onward ▸ stepped⟩
    | false =>
      rwa [(idle position closes state _ _ _ rfl stepped).1] at onward

/-- Behind the first statement the repetition goes on where the statement is closed. -/
private theorem onward_of_repeated (discreet : Discreet cypher caret)
    (plain : caret.prefers start = false) (ignored : caret.ignored.contains separator)
    (settled : Settled cypher caret {(start, 0)} state) (lastCloses : LastCloses caret ends)
    {follow : List Element} {found all : List Nat}
    (ran : (ends.foldlM (fun found place => do
      return union found (← (Element.repeated (.sequence [.token separator,
        .reference .statement])).walk caret (walkRule cypher caret depth) place inDocument follow))
      found : WalkM (List Nat)) state = .ok (all, after)) :
    Onward caret depth ends state after := by
  simp only [walk_statements plain ignored] at ran
  have idle (place) (here : caret.closes place = false) (begun : WalkState) :
      Keeps (· = begun) (reachAll (next caret (walkRule cypher caret depth)) (caret.tokens.size + 1)
        [place] [place]) fun _ => True := by
    rw [reachAll_next_of_none (by simp [here])]
    exact keeps_pure fun _ _ => trivial
  have onward := foldlM_closes (pairwise_of_lastCloses lastCloses) idle ran
  unfold Onward
  split at onward
  · rename_i stop closed
    obtain ⟨all, ran⟩ := onward
    have closing := List.find?_some closed
    have single : LastCloses caret [stop] := ⟨List.pairwise_singleton .., by simp⟩
    have goes := onward_of_reachAll discreet plain _ settled single (by simp) (fun _ _ _ => ?_) ran
    · simpa [Onward, closing, closed] using goes
    · rw [Caret.position]
      omega
  · exact onward

/-- The semicolon at the end is no candidate. -/
private theorem state_of_closing (plain : caret.prefers start = false)
    (ignored : caret.ignored.contains separator) {follow : List Element} {found all : List Nat}
    (ran : (ends.foldlM (fun found place => do
      return union found (← (Element.optional (.token separator)).walk caret descend place
        inDocument follow)) found : WalkM (List Nat)) state = .ok (all, after)) :
    after = state := by
  have idle (place) : Keeps (· = state) ((Element.optional (.token separator)).walk caret descend
      place inDocument follow) fun _ => True := by
    rw [Element.walk, walk_separator plain ignored, pure_bind]
    exact keeps_pure fun _ _ => trivial
  exact (keeps_each ends (fun place _ => idle place) (fun _ _ => trivial) _ _ _ rfl ran).1

private theorem settled_begun (caret : Caret) :
    Settled cypher caret {(start, 0)} (WalkState.record {} start 0 []) := by
  simpa using settled_open settled_empty start 0 []

/-- The walk of a document is one of its statements. -/
theorem chain_of_walk (discreet : Discreet cypher caret) (plain : caret.prefers start = false)
    (ignored : caret.ignored.contains separator)
    (ran : walkRule cypher caret (depth + 1) start 0 [] {} = .ok (ends, after)) :
    ∃ final, Chain caret depth 0 (WalkState.record {} start 0 []) final ∧
      after.candidates = final.candidates := by
  rw [walkRule_apply, plain, Bool.and_false, if_neg (by simp)] at ran
  simp only [Std.TreeMap.getElem?_emptyc, cypher] at ran
  obtain ⟨⟨all, final⟩, walked, same⟩ := exists_of_map_eq_ok ran
  cases same
  refine ⟨final, ?_, rfl⟩
  have shape : definition start = .sequence [.reference .statement,
      .repeated (.sequence [.token separator, .reference .statement]),
      .optional (.token separator)] := rfl
  rw [shape, Element.walk, walkInOrder_single, Element.walk] at walked
  obtain ⟨stops, middle, statement, walked⟩ := exists_of_bind_eq_ok walked
  obtain ⟨lists, kept⟩ := lists_of_statement discreet plain (settled_begun caret)
    (Nat.zero_le _) statement
  rw [Element.walkInOrder] at walked
  obtain ⟨positions, later, repeats, walked⟩ := exists_of_bind_eq_ok walked
  rw [Element.walkInOrder] at walked
  obtain ⟨_, _, closing, walked⟩ := exists_of_bind_eq_ok walked
  cases walked
  cases state_of_closing plain ignored closing
  exact chain_iff.mpr ⟨stops, middle, statement, onward_of_repeated discreet plain ignored kept
    (lastCloses_of_statement lists) repeats⟩

/-! ## Closed statements -/

/-- Nothing has been found, and all that is recorded below the rule of a document lies before a
place. -/
structure Quiet (limit : Nat) (state : WalkState) : Prop where
  nothing : state.candidates = {}
  recorded : ∀ (rule : Rule) (position : Nat) (ends : List Nat), rule ≠ start →
    state.recorded[(rule, position)]? = some ends → position < limit ∧ ∀ stop ∈ ends, stop < limit

variable {limit place : Nat} {kinds : List Kind}

theorem quiet_mono (quiet : Quiet place state) (later : place ≤ limit) : Quiet limit state where
  nothing := quiet.nothing
  recorded rule position ends below known := by
    obtain ⟨here, stops⟩ := quiet.recorded rule position ends below known
    exact ⟨Nat.lt_of_lt_of_le here later, fun stop member =>
      Nat.lt_of_lt_of_le (stops stop member) later⟩

theorem quiet_record (quiet : Quiet limit state) (before : position < limit)
    (stops : ∀ stop ∈ ends, stop < limit) : Quiet limit (state.record rule position ends) where
  nothing := quiet.nothing
  recorded other place known below present := by
    rw [WalkState.getElem?_record] at present
    split at present
    · rename_i same
      cases same
      cases present
      exact ⟨before, stops⟩
    · exact quiet.recorded other place known below present

/-- A walk inside a statement does not pass the semicolon behind it, and finds nothing. -/
theorem walkRule_quiet {last : Nat} (closes : caret.closes last) (depth : Nat) (rule : Rule)
    (below : rule ≠ start) (position : Nat) (before : position < last + 1) (stack : List Frame) :
    Keeps (Quiet (last + 1)) (walkRule cypher caret depth rule position stack) (· < last + 1) := by
  have inside := lt_of_closes closes
  induction depth generalizing rule position stack with
  | zero => exact keeps_zero
  | succ depth ih =>
    refine keeps_rule (fun _ _ here => ?_)
      (fun state ends quiet known => (quiet.recorded rule position ends below known).2)
      (fun state ends quiet stops => quiet_record quiet before stops) fun element _ defined => ?_
    · omega
    · cases defined
      have inner := inner_definition below
      refine walk_keeps _ (fun kind place follow member here => ?_)
        (fun target place member here => ?_) position [] before
      · have apart : kind ≠ separator := by
          simpa [Element.separates] using inner _ member
        have earlier : place < caret.position := by omega
        rw [Element.walk, if_neg (Nat.ne_of_lt earlier), ← caret.getElem?_before earlier]
        split
        · rename_i found
          have elsewhere : place ≠ last := by
            rintro rfl
            rw [before_of_closes closes] at found
            exact apart (Option.some.inj found).symm
          exact keeps_pure fun stop member => by
            rw [List.mem_singleton.mp member]
            omega
        · exact keeps_pure (List.forall_mem_nil _)
      · exact ih target (by simpa [Element.separates] using inner _ member) place here _

/-- Over closed statements the walk goes on, and finds nothing. -/
theorem chain_through (discreet : Discreet cypher caret) (plain : caret.prefers start = false)
    (terminated : Terminated kinds) (placed : kinds <+: caret.before.drop place)
    (inside : place ≤ caret.position)
    (quiet : Quiet place state) (settled : Settled cypher caret {(start, 0)} state)
    (chain : Chain caret depth place state final) :
    ∃ middle, Quiet (place + kinds.length) middle ∧
      Chain caret depth (place + kinds.length) middle final := by
  induction terminated generalizing place state with
  | none => exact ⟨state, quiet, chain⟩
  | @more word more statement others ih =>
    obtain ⟨here, behind⟩ := append_prefix_drop.mp placed
    obtain ⟨found, onward⟩ := append_prefix_drop.mp (show [separator] ++ more <+: _ from behind)
    have closes : caret.closes (place + word.length) := by
      simpa [Caret.closes] using singleton_prefix_drop.mp found
    have ended := spans_of_word statement here
    have before := lt_of_closes closes
    obtain ⟨ends, after, ran, chained⟩ := chain_iff.mp chain
    obtain ⟨lists, kept⟩ := lists_of_statement discreet plain settled inside ran
    have one := lastCloses_of_statement lists
    have member := (lists.mem_iff _).mpr ended
    have closed := find?_of_lastCloses one member closes
    have passed : Quiet (place + word.length + 1) after :=
      (walkRule_quiet closes depth .statement (by decide) place (by omega) inDocument _ _ _
        (quiet_mono quiet (by omega)) ran).1
    rw [Onward, closed] at chained
    have total : place + (word ++ separator :: more).length =
        place + word.length + 1 + more.length := by
      simp only [List.length_append, List.length_cons]
      omega
    rw [total]
    exact ih onward before passed kept chained

/-! ## Behind closed statements -/

variable {front : List Token} {base : Cursor} {first : Nat}

theorem before_behind (held : 0 < caret.tokens.size) :
    (caret.behind front base first).before = front.map (·.kind) ++ caret.before := by
  have some : caret.tokens.toList.map (Token.relocate base first) ≠ [] := by
    simpa using Array.ne_empty_of_size_pos held
  rw [Caret.before_eq, Caret.before_eq, Caret.behind, List.toList_toArray,
    List.dropLast_append_of_ne_nil some, List.map_append, List.map_dropLast, List.map_dropLast,
    List.map_map]
  rfl

theorem closes_behind (held : 0 < caret.tokens.size) (position : Nat) :
    (caret.behind front base first).closes (front.length + position) = caret.closes position := by
  rw [Caret.closes, before_behind held, List.getElem?_append_right (by simp), List.length_map,
    Nat.add_sub_cancel_left, Caret.closes]

/-- Statement by statement the walk of the whole text goes as that of the rest alone. -/
theorem chain_lockstep (held : 0 < caret.tokens.size) (plain : caret.prefers start = false)
    {full part fullFinal partFinal : WalkState} (inside : place ≤ caret.position)
    (paired : Paired caret front.length first full part)
    (one : Chain (caret.behind front base first) depth (front.length + place) full fullFinal)
    (two : Chain caret depth place part partFinal) :
    fullFinal.candidates = partFinal.candidates.shift first := by
  have frames : StacksPaired caret front.length inDocument inDocument :=
    .cons ⟨rfl, fun preferred => absurd preferred (by simp [plain])⟩ .nil
  have same (ends : List Nat) : (ends.map (front.length + ·)).find?
      (caret.behind front base first).closes =
        (ends.find? caret.closes).map (front.length + ·) := by
    rw [List.find?_map]
    exact congrArg _ (congrArg (List.find? · ends) (funext (closes_behind held)))
  induction two generalizing full with
  | last ran alone =>
    obtain ⟨ends, after, also, onward⟩ := chain_iff.mp one
    obtain ⟨rfl, -, kept⟩ := walkRule_lockstep held depth .statement (by decide) _ inside frames
      _ _ paired _ _ _ _ also ran
    rw [Onward, same, alone] at onward
    rw [onward]
    exact kept.candidates
  | more ran closed others ih =>
    obtain ⟨ends, after, also, onward⟩ := chain_iff.mp one
    obtain ⟨rfl, -, kept⟩ := walkRule_lockstep held depth .statement (by decide) _ inside frames
      _ _ paired _ _ _ _ also ran
    rw [Onward, same, closed] at onward
    exact ih (lt_of_closes (List.find?_some closed)) kept onward

/-- Behind closed statements the same candidates are found as in the rest alone. -/
theorem candidates_behind (held : 0 < caret.tokens.size)
    (discreet : Discreet cypher caret)
    (discreetBehind : Discreet cypher (caret.behind front base first))
    (plain : caret.prefers start = false) (ignored : caret.ignored.contains separator)
    (terminated : Terminated (front.map (·.kind)))
    {ends stops : List Nat} {full part : WalkState}
    (ran : walkRule cypher (caret.behind front base first) (depth + 1) start 0 [] {} =
      .ok (ends, full))
    (alone : walkRule cypher caret (depth + 1) start 0 [] {} = .ok (stops, part)) :
    full.candidates = part.candidates.shift first := by
  obtain ⟨fullFinal, fullChain, fullSame⟩ := chain_of_walk discreetBehind plain ignored ran
  obtain ⟨partFinal, partChain, partSame⟩ := chain_of_walk discreet plain ignored alone
  have begun (rule : Rule) (position : Nat) (below : rule ≠ start) :
      (WalkState.record {} start 0 []).recorded[(rule, position)]? = none := by
    rw [WalkState.getElem?_record, if_neg (by simp [below.symm])]
    exact Std.TreeMap.getElem?_emptyc
  have quiet : Quiet 0 (WalkState.record {} start 0 []) :=
    ⟨rfl, fun rule position ends below known => by simp [begun rule position below] at known⟩
  have placed : front.map (·.kind) <+: (caret.behind front base first).before.drop 0 := by
    rw [before_behind held]
    exact List.prefix_append _ _
  obtain ⟨middle, passed, chain⟩ := chain_through discreetBehind plain terminated placed
    (Nat.zero_le _) quiet (settled_begun _) fullChain
  rw [Nat.zero_add, List.length_map] at passed chain
  have paired : Paired caret front.length first middle (WalkState.record {} start 0 []) := by
    refine ⟨fun rule position below => ?_, fun rule position ends below known => ?_, passed.nothing⟩
    · rw [begun rule position below, Option.map_none]
      refine Option.eq_none_iff_forall_ne_some.mpr fun ends known => ?_
      have early := (passed.recorded rule _ ends below known).1
      exact absurd early (Nat.not_lt_of_le (Nat.le_add_right ..))
    · simp [begun rule position below] at known
  rw [fullSame, partSame]
  exact chain_lockstep held plain (Nat.zero_le _) paired chain partChain

end CypherAssist.Grammar
