import CypherAssist.Proofs.Document.Coverage
import CypherAssist.Proofs.Document.Lines
import CypherAssist.Proofs.Token.Extent
import Mathlib.Data.List.Pairwise

/-! Coloured pieces are disjoint and in order, each lies on one line, and none is missing. The tree
and the comments hold each token of the stream once between them, and no piece of a token reaches
beyond the place where the next one starts. -/
namespace CypherAssist.Highlight
open Token Grammar

variable {limits : Limits}

/-! ## Lines -/

variable {text : List Char} {cursor : Cursor} {mid : List (List Char)} {tail : List Char}

/-- Behind a piece of text a cursor stands at the end of the last of its lines. -/
theorem after_lines (cursor : Cursor) (lines : splitLines text = mid ++ [tail]) :
    (cursor.after text).line = cursor.line + mid.length ∧
      (cursor.after text).column = (if mid = [] then cursor.column else 0) + tail.length := by
  induction text generalizing cursor mid tail with
  | nil =>
    cases mid with
    | nil =>
      cases lines
      exact ⟨rfl, rfl⟩
    | cons line others => cases others <;> cases lines
  | cons c rest ih =>
    obtain ⟨more, split⟩ := splitLines_cons rest
    have step : cursor.after (c :: rest) = (cursor.advance c).after rest := rfl
    by_cases newline : c = '\n'
    · simp only [splitLines, if_pos newline] at lines
      cases mid with
      | nil => simp [split] at lines
      | cons line others =>
        obtain ⟨rfl, inner⟩ := List.cons.inj lines
        obtain ⟨line, column⟩ := ih (cursor.advance c) inner
        rw [step, line, column]
        simp [Cursor.advance, newline, Nat.add_comm, Nat.add_left_comm]
    · simp only [splitLines, if_neg newline, split] at lines
      cases mid with
      | nil =>
        obtain ⟨rfl, rfl⟩ := List.cons.inj lines
        obtain ⟨line, column⟩ := @ih [] _ (cursor.advance c) split
        rw [step, line, column]
        simp [Cursor.advance, newline, Nat.add_comm 1, Nat.add_assoc]
      | cons line others =>
        obtain ⟨rfl, rfl⟩ := List.cons.inj lines
        obtain ⟨line, column⟩ := @ih (_ :: others) _ (cursor.advance c) split
        rw [step, line, column]
        simp [Cursor.advance, newline]

/-- Each line of a piece of text lies on a line of the whole, the first one in the column where the
piece begins and the others at the margin. -/
theorem line_of_part (before piece behind : List Char) {number : Nat} {part : List Char}
    (found : (splitLines piece)[number]? = some part) :
    ∃ line,
      (splitLines (before ++ (piece ++ behind)))[(Cursor.after {} before).line - 1 + number]? =
        some line ∧
      part <+: line.drop (if number = 0 then (Cursor.after {} before).column else 0) ∧
      (if number = 0 then (Cursor.after {} before).column else 0) ≤ line.length := by
  obtain ⟨lines, front, counts⟩ := counts_after before
  obtain ⟨more, begins⟩ := splitLines_cons behind
  obtain ⟨mid, tail, ends⟩ : ∃ mid tail, splitLines piece = mid ++ [tail] := by
    obtain ⟨others, split⟩ := splitLines_cons piece
    exact ⟨_, _, (List.dropLast_append_getLast (by simp [split])).symm⟩
  have joined := splitLines_append ends begins
  -- the line of the piece goes on behind it only where it is the last
  obtain ⟨reached, longer, starts⟩ : ∃ line, (splitLines (piece ++ behind))[number]? = some line ∧
      part <+: line := by
    rw [joined]
    rw [ends] at found
    rcases Nat.lt_trichotomy number mid.length with early | rfl | late
    · rw [List.getElem?_append_left early] at found ⊢
      exact ⟨part, found, List.prefix_rfl⟩
    · rw [List.getElem?_concat_length] at found
      cases found
      exact ⟨_, by rw [List.getElem?_append_right (Nat.le_refl _), Nat.sub_self]; rfl,
        List.prefix_append _ _⟩
    · rw [List.getElem?_eq_none (by simp; omega)] at found
      cases found
  obtain ⟨others, split⟩ := splitLines_cons (piece ++ behind)
  rw [splitLines_append counts.split split, counts.line, counts.column, Nat.add_sub_cancel,
    List.getElem?_append_right (Nat.le_add_right _ _), Nat.add_sub_cancel_left]
  rw [split] at longer
  cases number with
  | zero =>
    cases longer
    exact ⟨_, rfl, by simpa using starts, by simp⟩
  | succ number => exact ⟨reached, longer, by simpa using starts, Nat.zero_le _⟩

/-! ## Pieces -/

/-- What a token has on one of its lines, unless that is nothing. -/
def IsPiece (token : Token) (colour : String) (piece : Highlight) : Prop :=
  ∃ number part, (splitLines token.lexeme)[number]? = some part ∧ part ≠ [] ∧
    piece = ⟨token.line - 1 + number, if number = 0 then token.column else 0, part.length, colour⟩

variable {token : Token} {colour : String} {piece : Highlight}

private theorem mem_piecesFrom {line column : Nat} {lines : List (List Char)} :
    piece ∈ piecesFrom colour line column lines ↔
      ∃ number part, lines[number]? = some part ∧ part ≠ [] ∧
        piece = ⟨line + number, if number = 0 then column else 0, part.length, colour⟩ := by
  induction lines generalizing line column with
  | nil => simp [piecesFrom]
  | cons first rest ih =>
    rw [piecesFrom, List.mem_append, ih]
    constructor
    · rintro (here | ⟨number, part, found, some, rfl⟩)
      · split at here
        · cases here
        · rename_i some
          rw [List.mem_singleton] at here
          exact ⟨0, first, rfl, by simpa using some, here⟩
      · exact ⟨number + 1, part, found, some, by simp [Nat.add_assoc, Nat.add_comm 1]⟩
    · rintro ⟨number, part, found, some, rfl⟩
      cases number with
      | zero =>
        cases found
        exact .inl (by simp [some])
      | succ number =>
        exact .inr ⟨number, part, found, some, by simp [Nat.add_assoc, Nat.add_comm 1]⟩

theorem mem_pieces : piece ∈ pieces token colour ↔ IsPiece token colour piece := mem_piecesFrom

theorem length_pos_of_isPiece (inside : IsPiece token colour piece) : 0 < piece.length := by
  obtain ⟨number, part, -, some, rfl⟩ := inside
  exact List.length_pos_iff.mpr some

/-! ## The order of pieces -/

/-- A piece ends before another begins, on an earlier line or further left on the same one. -/
def Precedes (one other : Highlight) : Prop :=
  one.line < other.line ∨ (one.line = other.line ∧ one.start + one.length ≤ other.start)

/-- A line and a column are not behind others. -/
def UpTo (one other : Nat × Nat) : Prop :=
  one.1 < other.1 ∨ (one.1 = other.1 ∧ one.2 ≤ other.2)

/-- The line and the column of a place. -/
def spot (cursor : Cursor) : Nat × Nat := (cursor.line, cursor.column)

theorem upTo_trans {one two three : Nat × Nat} (first : UpTo one two) (second : UpTo two three) :
    UpTo one three := by
  unfold UpTo at *
  omega

/-- A cursor never goes back. -/
theorem upTo_after (cursor : Cursor) (text : List Char) :
    UpTo (spot cursor) (spot (cursor.after text)) := by
  induction text generalizing cursor with
  | nil => exact .inr ⟨rfl, Nat.le_refl _⟩
  | cons c rest ih =>
    refine upTo_trans ?_ (ih (cursor.advance c))
    unfold Cursor.advance UpTo
    split
    · exact .inl (Nat.lt_succ_self _)
    · exact .inr ⟨rfl, Nat.le_succ _⟩

theorem line_after_pos (cursor : Cursor) (counted : 1 ≤ cursor.line) (text : List Char) :
    1 ≤ (cursor.after text).line := by
  have onward := upTo_after cursor text
  simp only [UpTo, spot] at onward
  omega

/-- A piece of a token lies between the place of the token and the place behind it. -/
theorem piece_between (counted : 1 ≤ token.place.line) (inside : IsPiece token colour piece) :
    UpTo (spot token.place) (piece.line + 1, piece.start) ∧
      UpTo (piece.line + 1, piece.start + piece.length)
        (spot (token.place.after token.lexeme)) := by
  obtain ⟨number, part, found, -, rfl⟩ := inside
  obtain ⟨others, split⟩ := splitLines_cons token.lexeme
  obtain ⟨mid, tail, ends⟩ : ∃ mid tail, splitLines token.lexeme = mid ++ [tail] :=
    ⟨_, _, (List.dropLast_append_getLast (by simp [split])).symm⟩
  obtain ⟨line, column⟩ := after_lines token.place ends
  rw [ends] at found
  have short := (List.getElem?_eq_some_iff.mp found).1
  rw [List.length_append, List.length_singleton] at short
  simp only [UpTo, spot, line, column, Token.line, Token.column]
  rcases Nat.lt_or_eq_of_le (Nat.le_of_lt_succ short) with early | rfl
  · split <;> omega
  · rw [List.getElem?_concat_length] at found
    cases found
    cases mid with
    | nil => simp; omega
    | cons first rest => simp; omega

/-- The pieces of one token are in order. -/
theorem pairwise_pieces (token : Token) (colour : String) :
    (pieces token colour).Pairwise Precedes := by
  rw [pieces]
  generalize token.line - 1 = line, token.column = column, splitLines token.lexeme = lines
  induction lines generalizing line column with
  | nil => exact .nil
  | cons first rest ih =>
    rw [piecesFrom]
    refine List.pairwise_append.mpr ⟨?_, ih _ _, fun one here other later => ?_⟩
    · split
      · exact .nil
      · exact List.pairwise_singleton ..
    · obtain ⟨number, part, -, -, rfl⟩ := mem_piecesFrom.mp later
      split at here
      · cases here
      · rw [List.mem_singleton.mp here]
        exact .inl (by simp only; omega)

/-- All that may be coloured of one token comes before all of another. -/
def Ahead (one other : Token) : Prop :=
  ∀ first second colour tint, IsPiece one colour first → IsPiece other tint second →
    Precedes first second

/-- Tokens are coloured in the order of the stream. -/
theorem pairwise_ahead (cursor : Cursor) (counted : 1 ≤ cursor.line) (index : Nat)
    (text : List Char) : (Stream.readFrom cursor index text).toList.Pairwise Ahead := by
  induction cursor, index, text using Stream.readFrom_induction with
  | nothing | opened => exact List.pairwise_singleton ..
  | token cursor index kind lexeme rest some starts ih =>
    have onward := line_after_pos cursor counted lexeme
    refine List.pairwise_cons.mpr ⟨fun other later => ?_, ih onward⟩
    intro first second colour tint one two
    obtain ⟨before, behind, -, place⟩ := Stream.place_of_mem later
    have further := upTo_after (cursor.after lexeme) before
    rw [← place] at further
    have left := (@piece_between ⟨kind, lexeme, cursor, index⟩ colour first counted one).2
    have right := (piece_between (place ▸ line_after_pos _ onward before) two).1
    have between := upTo_trans (upTo_trans left further) right
    simp only [UpTo] at between
    unfold Precedes
    omega

/-! ## Colours -/

/-- The colour of the rule that a node carries. -/
def tint? (node : Tree) : Option String := node.rule?.bind ruleColour?

/-- The colour of a token below these nodes, the closest first. Names, keywords, strings and numbers
take the colour of the closest node that has one; all else has the colour of its category. -/
inductive Colours (token : Token) (colour : String) : List Tree → Prop where
  | rule {inner : List Tree} {node : Tree} {outer : List Tree}
    (takes : token.category ∈ [.keyword, .symbolicName, .stringLiteral, .numberLiteral])
    (plain : ∀ closer ∈ inner, tint? closer = none) (tinted : tint? node = some colour) :
    Colours token colour (inner ++ node :: outer)
  | category (apart : token.category ∈ [.keyword, .symbolicName, .stringLiteral, .numberLiteral] →
      ∀ node ∈ above, tint? node = none)
    (own : categoryColour? token.category = some colour) : Colours token colour above

/-- Where a token of a document stands: in the tree below these nodes, or, if it is a comment,
nowhere in it. -/
inductive Stands (document : Document) (token : Token) : List Tree → Prop where
  | leaf (member : (token, above) ∈ document.tree.leavesBelow []) : Stands document token above
  | comment (member : token ∈ document.stream.toList) (apart : token.category = .comment) :
    Stands document token []

/-- The colour of the rules around a place, the closest node first. -/
def inherited? (above : List Tree) : Option String := above.findSome? tint?

variable {above : List Tree}

theorem inherited?_eq_none_iff (above : List Tree) :
    inherited? above = none ↔ ¬ ∃ node ∈ above, tint? node ≠ none := by
  simp [inherited?, List.findSome?_eq_none_iff]

theorem takesRuleColour_iff (category : Category) :
    takesRuleColour category ↔
      category ∈ [.keyword, .symbolicName, .stringLiteral, .numberLiteral] := by
  cases category <;> simp [takesRuleColour]

theorem isEnd_iff_category (token : Token) : token.isEnd ↔ token.category = .endOfFile := by
  rw [Token.isEnd, decide_eq_true_eq, Token.category]
  cases token.kind with
  | symbol sign => cases sign <;> simp [Kind.category]
  | _ => simp [Kind.category]

/-- A leaf gets the colour that the nodes above it make for. -/
theorem colour?_eq_some_iff :
    colour? (inherited? above) token = some colour ↔ Colours token colour above := by
  simp only [colour?, isEnd_iff_category]
  constructor
  · intro found
    split at found
    · cases found
    · split at found
      · rename_i tint outer
        split at found
        · rename_i takes
          cases found
          obtain ⟨inner, node, others, rfl, tinted, plain⟩ := List.findSome?_eq_some_iff.mp outer
          exact .rule ((takesRuleColour_iff _).mp takes) plain tinted
        · rename_i apart
          exact .category (fun takes => absurd ((takesRuleColour_iff _).mpr takes) apart) found
      · rename_i plain
        exact .category (fun _ => List.findSome?_eq_none_iff.mp plain) found
  · intro colours
    cases colours with
    | @rule inner node outer takes plain tinted =>
      have found : inherited? (inner ++ node :: outer) = some colour :=
        List.findSome?_eq_some_iff.mpr ⟨inner, node, outer, rfl, tinted, plain⟩
      have other : token.category ≠ .endOfFile := by
        intro ends
        simp [ends] at takes
      simp [found, other, (takesRuleColour_iff _).mpr takes]
    | category apart own =>
      have other : token.category ≠ .endOfFile := by
        intro ends
        simp [ends, categoryColour?] at own
      rw [if_neg other]
      split
      · rename_i tint outer
        split
        · rename_i takes
          have plain := List.findSome?_eq_none_iff.mpr (apart ((takesRuleColour_iff _).mp takes))
          rw [inherited?, plain] at outer
          cases outer
        · exact own
      · exact own

/-- Which tokens have a colour. -/
theorem exists_colours_iff :
    (∃ colour, Colours token colour above) ↔
      token.category ∈ [.keyword, .operator, .stringLiteral, .numberLiteral, .comment] ∨
        token.category = .symbolicName ∧ ∃ node ∈ above, tint? node ≠ none := by
  have tinted := not_congr (inherited?_eq_none_iff above)
  rw [not_not] at tinted
  simp only [← colour?_eq_some_iff, colour?, isEnd_iff_category, ← tinted]
  cases inherited? above <;> cases token.category <;> simp [takesRuleColour, categoryColour?]

mutual

/-- The pieces of a tree are those of its leaves, each with the colour of the rules around it. -/
theorem ofTree_eq_flatMap : ∀ (tree : Tree) (above : List Tree),
    ofTree (inherited? above) tree =
      (tree.leavesBelow above).flatMap fun place => ofLeaf (inherited? place.2) place.1
  | .leaf token, above => by simp [ofTree, Tree.leavesBelow]
  | .misfit token, above => by simp [ofTree, Tree.leavesBelow]
  | .node rule isPartial children, above => by
    have inner : (ruleColour? rule <|> inherited? above) =
        inherited? (.node rule isPartial children :: above) := by
      rw [inherited?, inherited?, List.findSome?_cons]
      cases found : ruleColour? rule <;> simp [tint?, Tree.rule?, found]
    rw [ofTree, inner, Tree.leavesBelow]
    exact ofTrees_eq_flatMap children _

theorem ofTrees_eq_flatMap : ∀ (trees : List Tree) (above : List Tree),
    ofTrees (inherited? above) trees =
      (Tree.leavesBelowAll above trees).flatMap fun place => ofLeaf (inherited? place.2) place.1
  | [], _ => rfl
  | tree :: rest, above => by
    rw [ofTrees, ofTree_eq_flatMap tree above, ofTrees_eq_flatMap rest above, Tree.leavesBelowAll,
      List.flatMap_append]

end

theorem mem_ofLeaf :
    piece ∈ ofLeaf (inherited? above) token ↔
      ∃ colour, Colours token colour above ∧ IsPiece token colour piece := by
  unfold ofLeaf
  cases found : colour? (inherited? above) token with
  | none =>
    simp only [Option.map_none, Option.getD_none, List.not_mem_nil, false_iff]
    rintro ⟨colour, colours, -⟩
    rw [colour?_eq_some_iff.mpr colours] at found
    cases found
  | some colour =>
    have own := colour?_eq_some_iff.mp found
    rw [Option.map_some, Option.getD_some, mem_pieces]
    refine ⟨fun inside => ⟨colour, own, inside⟩, ?_⟩
    rintro ⟨other, colours, inside⟩
    rw [colour?_eq_some_iff.mpr colours] at found
    cases found
    exact inside

theorem pairwise_ofLeaf (outer? : Option String) (token : Token) :
    (ofLeaf outer? token).Pairwise Precedes := by
  unfold ofLeaf
  cases colour? outer? token with
  | none => exact .nil
  | some colour => exact pairwise_pieces token colour

/-! ## Documents -/

/-- The tokens of a document that are coloured by its tree, and its comments. -/
theorem mem_ofDocument (document : Document) :
    piece ∈ ofDocument document ↔
      ∃ token above colour, Stands document token above ∧ Colours token colour above ∧
        IsPiece token colour piece := by
  have tree : ofTree none document.tree = _ := ofTree_eq_flatMap document.tree []
  rw [ofDocument, List.mem_mergeSort, List.mem_append, tree]
  simp only [List.mem_flatMap, List.mem_filter, decide_eq_true_eq, mem_ofLeaf, mem_pieces]
  constructor
  · rintro (⟨⟨token, above⟩, member, colour, colours, inside⟩ | ⟨token, ⟨member, apart⟩, inside⟩)
    · exact ⟨token, above, colour, .leaf member, colours, inside⟩
    · exact ⟨token, [], _, .comment member apart,
        .category (by simp) (by simp [apart, categoryColour?]), inside⟩
  · rintro ⟨token, above, colour, stands, colours, inside⟩
    cases stands with
    | leaf member => exact .inl ⟨(token, above), member, colour, colours, inside⟩
    | comment member apart =>
      have own := colour?_eq_some_iff.mpr colours
      simp only [colour?, isEnd_iff_category, apart, inherited?, List.findSome?_nil, reduceCtorEq,
        if_false, categoryColour?, Option.some.injEq] at own
      exact .inr ⟨token, ⟨member, apart⟩, own ▸ inside⟩

variable {text : String}

theorem tokens_parse (text : String) : (Document.parse limits text).tree.tokens =
    (Document.parse limits text).stream.toList.filter fun token => !token.isHidden := by
  obtain ⟨issues, parsed, -⟩ := Document.parse_parsed limits text
  obtain ⟨isPartial, children, planted, covered⟩ := Document.tokens_of_parsed parsed
  have shown : (Document.parse limits text).stream.last.isHidden = false :=
    Stream.isHidden_last text.toList
  rw [planted, Tree.tokens, Tree.tokensOfAll_append, covered, Stream.toList, List.filter_append]
  simp [Tree.tokensOfAll, Tree.tokens, shown, Stream.visible]

/-- A leaf of the tree holds a token of the stream that is not hidden. -/
theorem shown_of_leaf (member : (token, above) ∈ (Document.parse limits text).tree.leavesBelow []) :
    token ∈ (Document.parse limits text).stream.toList ∧ token.isHidden = false := by
  have inside : token ∈ ((Document.parse limits text).tree.leavesBelow []).map Prod.fst :=
    List.mem_map.mpr ⟨_, member, rfl⟩
  rw [Tree.map_leavesBelow, tokens_parse, List.mem_filter] at inside
  exact inside.imp_right fun shown => by simpa using shown

theorem isHidden_iff_category (token : Token) :
    token.isHidden ↔ token.category = .whitespace ∨ token.category = .comment := by
  rw [Token.isHidden, Token.category]
  cases token.kind with
  | symbol sign => cases sign <;> simp [Kind.isHidden, Kind.category]
  | _ => simp [Kind.isHidden, Kind.category]

theorem mem_of_stands (stands : Stands (Document.parse limits text) token above) :
    token ∈ (Document.parse limits text).stream.toList := by
  cases stands with
  | leaf member => exact (shown_of_leaf member).1
  | comment member => exact member

/-- Two pieces do not overlap. -/
def Apart (one other : Highlight) : Prop := Precedes one other ∨ Precedes other one

theorem apart_symm {one other : Highlight} (apart : Apart one other) : Apart other one :=
  Or.symm apart

/-- All tokens of a text are coloured apart from each other. -/
theorem apart_of_ne (text : List Char) {one other : Token}
    (first : one ∈ (Stream.ofText text).toList) (second : other ∈ (Stream.ofText text).toList)
    (different : one ≠ other) : Ahead one other ∨ Ahead other one := by
  have ordered := pairwise_ahead {} (Nat.le_refl 1) 0 text
  have : Std.Symm fun one other => Ahead one other ∨ Ahead other one := ⟨fun _ _ => Or.symm⟩
  exact (ordered.imp (S := fun one other => Ahead one other ∨ Ahead other one) .inl).forall
    first second different

/-- No two pieces of a document overlap. -/
theorem pairwise_apart (limits : Limits) (text : String) :
    (ofDocument (Document.parse limits text)).Pairwise Apart := by
  have tree : ofTree none (Document.parse limits text).tree = _ :=
    ofTree_eq_flatMap (Document.parse limits text).tree []
  rw [ofDocument, (List.mergeSort_perm _ _).pairwise_iff apart_symm, tree]
  have ordered := pairwise_ahead {} (Nat.le_refl 1) 0 text.toList
  refine List.pairwise_append.mpr ⟨?_, ?_, ?_⟩
  · refine List.pairwise_flatMap.mpr ⟨fun place _ => (pairwise_ofLeaf _ _).imp .inl, ?_⟩
    have leaves :
        (((Document.parse limits text).tree.leavesBelow []).map Prod.fst).Pairwise Ahead := by
      rw [Tree.map_leavesBelow, tokens_parse]
      exact ordered.filter _
    refine (List.pairwise_map.mp leaves).imp fun ahead first one second two => ?_
    obtain ⟨colour, -, one⟩ := mem_ofLeaf.mp one
    obtain ⟨tint, -, two⟩ := mem_ofLeaf.mp two
    exact .inl (ahead first second colour tint one two)
  · refine List.pairwise_flatMap.mpr ⟨fun token _ => (pairwise_pieces _ _).imp .inl, ?_⟩
    refine (ordered.filter _).imp fun ahead first one second two => ?_
    exact .inl (ahead first second _ _ (mem_pieces.mp one) (mem_pieces.mp two))
  · intro first one second two
    obtain ⟨⟨token, above⟩, leaf, one⟩ := List.mem_flatMap.mp one
    obtain ⟨comment, member, two⟩ := List.mem_flatMap.mp two
    obtain ⟨inside, hidden⟩ := List.mem_filter.mp member
    obtain ⟨colour, -, one⟩ := mem_ofLeaf.mp one
    obtain ⟨among, shown⟩ := shown_of_leaf leaf
    have different : token ≠ comment := by
      rintro rfl
      rw [(isHidden_iff_category token).mpr (.inr (by simpa using hidden))] at shown
      cases shown
    exact (apart_of_ne text.toList among inside different).imp
      (fun ahead => ahead _ _ _ _ one (mem_pieces.mp two))
      fun ahead => ahead _ _ _ _ (mem_pieces.mp two) one

theorem length_pos_of_mem {document : Document} (member : piece ∈ ofDocument document) :
    0 < piece.length := by
  obtain ⟨token, above, colour, -, -, inside⟩ := (mem_ofDocument document).mp member
  exact length_pos_of_isPiece inside

/-- A piece lies on its line of the text. -/
theorem line_of_mem (member : piece ∈ ofDocument (Document.parse limits text)) :
    ∃ line, (splitLines text.toList)[piece.line]? = some line ∧
      piece.start + piece.length ≤ line.length := by
  obtain ⟨token, above, colour, stands, -, number, part, found, -, rfl⟩ :=
    (mem_ofDocument _).mp member
  obtain ⟨before, behind, same, place⟩ := Stream.place_of_mem (mem_of_stands stands)
  obtain ⟨line, reached, starts, short⟩ := line_of_part before token.lexeme behind found
  rw [← same, ← place] at reached
  rw [← place] at starts short
  have room := starts.length_le
  rw [List.length_drop] at room
  refine ⟨line, reached, ?_⟩
  simp only [Token.column]
  omega

/-- The pieces of a document come in order. -/
theorem pairwise_precedes (limits : Limits) (text : String) :
    (ofDocument (Document.parse limits text)).Pairwise Precedes := by
  have sorted : (ofDocument (Document.parse limits text)).Pairwise fun one other =>
      before one other := by
    refine List.pairwise_mergeSort (fun one two three => ?_) (fun one two => ?_) _
    all_goals
      simp only [before, Bool.or_eq_true, Bool.and_eq_true, decide_eq_true_eq]
      omega
  refine (sorted.and (pairwise_apart limits text)).imp_of_mem
    fun {one other} first second both => ?_
  have positive := length_pos_of_mem second
  obtain ⟨sorted, apart⟩ := both
  simp only [before, Bool.or_eq_true, Bool.and_eq_true, decide_eq_true_eq] at sorted
  unfold Apart Precedes at apart
  unfold Precedes
  omega

/-- What is coloured in a document: pieces in strictly ascending order that do not overlap, each
within one line of the text; they are the pieces of all keywords, operators, strings, numbers and
comments and of the names below a node with a colour. -/
structure Exact (text : List Char) (document : Document) (highlights : List Highlight) : Prop where
  ascending : highlights.Pairwise fun one other =>
    one.line < other.line ∨ (one.line = other.line ∧ one.start < other.start)
  disjoint : highlights.Pairwise fun one other =>
    one.line = other.line → one.start + one.length ≤ other.start
  positive : ∀ piece ∈ highlights, 0 < piece.length
  within : ∀ piece ∈ highlights, ∃ line, (splitLines text)[piece.line]? = some line ∧
    piece.start + piece.length ≤ line.length
  members : ∀ piece, piece ∈ highlights ↔ ∃ token above colour,
    Stands document token above ∧ Colours token colour above ∧ IsPiece token colour piece
  coloured : ∀ token ∈ document.stream.toList, token.category ≠ .whitespace → ∃ above,
    Stands document token above ∧ ((∃ colour, Colours token colour above) ↔
      token.category ∈ [.keyword, .operator, .stringLiteral, .numberLiteral, .comment] ∨
        token.category = .symbolicName ∧ ∃ node ∈ above, tint? node ≠ none)

/-- For every text the semantic tokens are disjoint, in order, each on one line, and complete. -/
theorem ofDocument_exact (text : String) :
    Exact text.toList (Document.parse limits text) (ofDocument (Document.parse limits text)) where
  ascending := (pairwise_precedes limits text).imp_of_mem
    fun {one other} first second precedes => by
    have positive := length_pos_of_mem first
    unfold Precedes at precedes
    omega
  disjoint := (pairwise_precedes limits text).imp fun precedes same => by
    unfold Precedes at precedes
    omega
  positive _ member := length_pos_of_mem member
  within _ member := line_of_mem member
  members _ := mem_ofDocument _
  coloured token member shown := by
    by_cases comment : token.category = .comment
    · exact ⟨[], .comment member comment, exists_colours_iff⟩
    · have inside : token ∈ (Document.parse limits text).tree.tokens := by
        rw [tokens_parse, List.mem_filter]
        exact ⟨member, by simp [Bool.eq_false_iff, isHidden_iff_category, shown, comment]⟩
      rw [← Tree.map_leavesBelow _ []] at inside
      obtain ⟨⟨_, above⟩, leaf, rfl⟩ := List.mem_map.mp inside
      exact ⟨above, .leaf leaf, exists_colours_iff⟩

end CypherAssist.Highlight
