import CypherAssist.Proofs.Document.Caret
import CypherAssist.Proofs.Document.Diagnostics
import CypherAssist.Proofs.Document.Highlighting
import CypherAssist.Proofs.Document.Stop
import CypherAssist.Proofs.Grammar.Joining
import CypherAssist.Proofs.Token.Joining

/-! Documents joined by a semicolon and a newline. Their tree holds the trees of both, and nothing
in a tree tells where the text stands but the lines; so the joined text is coloured as each of them
alone, the second one so many lines further down. -/
namespace CypherAssist

variable {limits : Limits}

namespace Highlight
open Token Grammar

/-- The same piece so many lines further down. -/
def lower (lines : Nat) (piece : Highlight) : Highlight := { piece with line := piece.line + lines }

/-! ## Trees further down -/

theorem piecesFrom_lower (colour : String) (lines line column : Nat) (texts : List (List Char)) :
    piecesFrom colour (line + lines) column texts =
      (piecesFrom colour line column texts).map (lower lines) := by
  induction texts generalizing line column with
  | nil => rfl
  | cons text rest ih =>
    rw [piecesFrom, piecesFrom, Nat.add_right_comm, ih, List.map_append]
    split <;> rfl

/-- The place is the margin of a line with so many others above it. -/
structure Margin (base : Cursor) (lines : Nat) : Prop where
  line : base.line = lines + 1
  column : base.column = 0

variable {base : Cursor} {lines number : Nat} {token : Token}

theorem pieces_relocate (margin : Margin base lines) (counted : 1 ≤ token.place.line)
    (colour : String) :
    pieces (token.relocate base number) colour = (pieces token colour).map (lower lines) := by
  have line : (token.relocate base number).line - 1 = token.line - 1 + lines := by
    simp only [Token.line, Token.relocate, Cursor.behind, margin.line]
    omega
  have column : (token.relocate base number).column = token.column := by
    simp [Token.column, Token.relocate, Cursor.behind, margin.column]
  rw [pieces, line, column, piecesFrom_lower]
  rfl

theorem ofLeaf_relocate (margin : Margin base lines) (counted : 1 ≤ token.place.line)
    (outer? : Option String) :
    ofLeaf outer? (token.relocate base number) = (ofLeaf outer? token).map (lower lines) := by
  have same : colour? outer? (token.relocate base number) = colour? outer? token := rfl
  rw [ofLeaf, ofLeaf, same]
  cases colour? outer? token with
  | none => rfl
  | some colour => exact pieces_relocate margin counted colour

mutual

/-- A tree further down is coloured alike. -/
theorem ofTree_relocate (margin : Margin base lines) : ∀ (tree : Tree) (outer? : Option String),
    (∀ token ∈ tree.tokens, 1 ≤ token.place.line) →
    ofTree outer? (tree.relocate base number) = (ofTree outer? tree).map (lower lines)
  | .leaf token, outer?, counted =>
    ofLeaf_relocate margin (counted token (List.mem_singleton_self _)) outer?
  | .misfit token, outer?, counted =>
    ofLeaf_relocate margin (counted token (List.mem_singleton_self _)) outer?
  | .node rule _ children, outer?, counted =>
    ofTrees_relocate margin children (ruleColour? rule <|> outer?) counted

theorem ofTrees_relocate (margin : Margin base lines) : ∀ (trees : List Tree)
    (outer? : Option String), (∀ token ∈ Tree.tokensOfAll trees, 1 ≤ token.place.line) →
    ofTrees outer? (Tree.relocateAll base number trees) = (ofTrees outer? trees).map (lower lines)
  | [], _, _ => rfl
  | tree :: rest, outer?, counted => by
    obtain ⟨here, later⟩ := List.forall_mem_append.mp counted
    rw [Tree.relocateAll, ofTrees, ofTrees, List.map_append,
      ofTree_relocate margin tree outer? here, ofTrees_relocate margin rest outer? later]

end

theorem ofTrees_append (outer? : Option String) (first second : List Tree) :
    ofTrees outer? (first ++ second) = ofTrees outer? first ++ ofTrees outer? second := by
  induction first with
  | nil => rfl
  | cons tree rest ih => rw [List.cons_append, ofTrees, ofTrees, ih, List.append_assoc]

/-! ## What a document is coloured by -/

/-- The pieces of the comments among tokens. -/
def ofComments (tokens : List Token) : List Highlight :=
  (tokens.filter fun token => token.category = .comment).flatMap fun token => pieces token "comment"

theorem ofComments_append (first second : List Token) :
    ofComments (first ++ second) = ofComments first ++ ofComments second := by
  simp [ofComments]

theorem ofComments_singleton (other : token.category ≠ .comment) : ofComments [token] = [] := by
  simp [ofComments, other]

theorem ofComments_relocate (margin : Margin base lines) {tokens : List Token}
    (counted : ∀ token ∈ tokens, 1 ≤ token.place.line) :
    ofComments (tokens.map (Token.relocate base number)) =
      (ofComments tokens).map (lower lines) := by
  induction tokens with
  | nil => rfl
  | cons token rest ih =>
    obtain ⟨here, later⟩ := List.forall_mem_cons.mp counted
    rw [← List.singleton_append, ofComments_append, List.map_append, ofComments_append,
      List.map_append, ih later]
    by_cases comment : token.category = .comment
    · have same : (token.relocate base number).category = .comment := comment
      simp [ofComments, comment, same, pieces_relocate margin here]
    · have apart : (token.relocate base number).category ≠ .comment := comment
      rw [ofComments_singleton comment, List.map_singleton, ofComments_singleton apart]
      rfl

theorem ofDocument_perm (document : Document) : (ofDocument document).Perm
    (ofTree none document.tree ++ ofComments document.stream.toList) :=
  List.mergeSort_perm _ _

/-- A tree over all of the tokens is coloured by what is derived. -/
theorem ofTree_plant {stream : Stream} (closed : stream.last.isEnd) (isPartial : Bool)
    (children : List Derivation) :
    ofTree none (Document.plant stream isPartial children stream.visible.length) =
      ofTrees none (Tree.ofDerivations stream.visible.toArray children) := by
  have nothing : ofTrees none [.leaf stream.last] = [] := by
    simp [ofTrees, ofTree, ofLeaf, colour?, closed]
  rw [Document.plant, List.drop_length, List.map_nil, List.nil_append]
  refine (ofTrees_append none _ _).trans ?_
  rw [nothing, List.append_nil]

/-- The lines of a text are counted from one. -/
theorem counted_of_mem {text : String} (member : token ∈ (Stream.ofText text.toList).toList) :
    1 ≤ token.place.line := by
  obtain ⟨before, -, -, place⟩ := Stream.place_of_mem member
  exact place ▸ line_after_pos {} (Nat.le_refl 1) before

theorem counted_of_derivations (text : String) (children : List Derivation) :
    ∀ token ∈ Tree.tokensOfAll
      (Tree.ofDerivations (Document.parse limits text).stream.visible.toArray children),
      1 ≤ token.place.line := by
  intro token member
  rw [Tree.tokensOfAll_ofDerivations] at member
  obtain ⟨position, -, found⟩ := List.mem_filterMap.mp member
  have visible : token ∈ (Document.parse limits text).stream.visible :=
    List.mem_of_getElem? (by simpa using found)
  exact counted_of_mem (List.mem_append_left _ (List.mem_filter.mp visible).1)

/-- Behind a newline a cursor stands at the margin, below all lines passed. -/
theorem margin_after (text : List Char) :
    Margin (Cursor.after {} (text ++ ['\n'])) (text.count '\n' + 1) where
  line := by
    obtain ⟨before, front, counts⟩ := counts_after (text ++ ['\n'])
    have lines := congrArg List.length counts.split
    rw [Text.length_splitLines, List.length_append, List.length_singleton] at lines
    rw [counts.line, ← lines]
    simp
  column := by
    rw [Cursor.after_append]
    rfl

/-- Two orders of the same pieces, both from left to right, are one. -/
theorem eq_of_perm {one two : List Highlight} (same : one.Perm two)
    (ordered : one.Pairwise Precedes) (orderedToo : two.Pairwise Precedes)
    (positive : ∀ piece ∈ one, 0 < piece.length) : one = two := by
  refine same.eq_of_pairwise (fun first second inside _ before behind => ?_) ordered orderedToo
  have some := positive first inside
  unfold Precedes at before behind
  omega

end Highlight

namespace Document
open Token Grammar Outcomes

variable {text first second : String}

/-- The tree of a document is what is derived for all of its visible tokens. -/
theorem tree_of_document
    (ran : ∃ found state,
      derive limits (parse limits text).stream.visible.toArray = .ok (found, state))
    (document : Word cypher (.reference Grammar.start) (visibleKinds (parse limits text).stream)) :
    ∃ isPartial children, (.upTo (visibleKinds (parse limits text).stream).length,
        .node Grammar.start isPartial children) ∈
          reading cypher (visibleKinds (parse limits text).stream) Grammar.start 0 ∧
      (parse limits text).tree = plant (parse limits text).stream isPartial children
        (parse limits text).stream.visible.length := by
  obtain ⟨found, state, ran⟩ := ran
  obtain ⟨isPartial, children, read, tree⟩ := tree_of_viable ran (viable_of_word document)
  rw [whole, if_pos document] at read
  exact ⟨isPartial, children, read, tree⟩

/-- A text without problems does not nest too deeply. -/
theorem derive_of_valid (valid : (parse limits text).issues = []) :
    ∃ found state, derive limits (parse limits text).stream.visible.toArray = .ok (found, state) :=
  (not_tooDeep_iff text).mp (by simp [valid])

/-- What is derived for a document covers its visible tokens and no others. -/
theorem leaves_of_document {stream : Stream} {isPartial : Bool} {children : List Derivation}
    (read : (.upTo (visibleKinds stream).length, .node Grammar.start isPartial children) ∈
      reading cypher (visibleKinds stream) Grammar.start 0) :
    ∀ position ∈ Derivation.leavesOfAll children, position < stream.visible.length := by
  have covered := (leaves_of_derives (reading_sound cypher _ _ _ _ _ read) (Nat.zero_le _)).2.2
  have leaves : Derivation.leavesOfAll children =
      Derivation.leavesOfAll [.node Grammar.start isPartial children] := (List.append_nil _).symm
  intro position member
  rw [leaves, covered] at member
  simpa [Reach.stop] using List.mem_range'_1.mp member

/-- The trees of two documents with a token between them. -/
theorem trees_joined {visible more : List Token} {statements : List Derivation} {base : Cursor}
    {number : Nat} {mark : Token}
    (within : ∀ position ∈ Derivation.leavesOfAll statements, position < visible.length)
    (others : List Derivation) :
    Tree.ofDerivations (visible ++ [mark] ++ more.map (Token.relocate base number)).toArray
        (statements ++ .token visible.length :: Derivation.shiftAll (visible.length + 1) others) =
      Tree.ofDerivations visible.toArray statements ++ [.leaf mark] ++
        Tree.relocateAll base number (Tree.ofDerivations more.toArray others) := by
  have length : (visible ++ [mark]).length = visible.length + 1 := by simp
  have second := @Tree.ofDerivations_shift base number (visible ++ [mark]) more others
  rw [length] at second
  have first := Tree.ofDerivations_of_leaves visible
    ([mark] ++ more.map (Token.relocate base number)) statements within
  rw [← List.append_assoc] at first
  rw [Tree.ofDerivations_append, Tree.ofDerivations, first, second, List.append_assoc]
  simp [Tree.ofDerivation]

/-- The text of two documents with a semicolon and a newline between them. -/
abbrev joined (first second : String) : String := first ++ ";\n" ++ second

/-- The place behind a text, the semicolon and the newline. -/
abbrev seam (first : String) : Cursor := Cursor.after {} (first.toList ++ [';', '\n'])

/-- The tokens of two joined texts: those of the first, a semicolon, those of the second. -/
structure Joined (limits : Limits) (first second : String) (mark : Token) (number : Nat) :
    Prop where
  semicolon : mark.kind = separator
  shown : Stream.SameShown (parse limits (joined first second)).stream
    (Stream.prepend ((parse limits first).stream.body ++ [mark])
      ((parse limits second).stream.relocate (seam first) number))

theorem exists_joined (closable : (parse limits first).stream.Closable) (second : String) :
    ∃ mark number, Joined limits first second mark number := by
  obtain ⟨mark, number, semicolon, shown⟩ := Stream.ofText_joined closable second.toList
  refine ⟨mark, number, semicolon, ?_⟩
  have text : (joined first second).toList = first.toList ++ [';', '\n'] ++ second.toList := by
    simp
  simpa only [parse, text] using shown

variable {mark : Token} {number : Nat}

theorem visible_joined (tokens : Joined limits first second mark number) :
    (parse limits (joined first second)).stream.visible =
      (parse limits first).stream.visible ++ [mark] ++
        (parse limits second).stream.visible.map (Token.relocate (seam first) number) := by
  have plain : mark.isHidden = false := by
    rw [Token.isHidden, tokens.semicolon]
    rfl
  rw [Stream.visible_of_sameShown tokens.shown]
  simp [Stream.visible, Stream.prepend, Stream.relocate, List.filter_map, Function.comp_def, plain]

theorem visibleKinds_joined (tokens : Joined limits first second mark number) :
    visibleKinds (parse limits (joined first second)).stream =
      visibleKinds (parse limits first).stream ++ [separator] ++
        visibleKinds (parse limits second).stream := by
  simp [visibleKinds, visible_joined tokens, tokens.semicolon]

end Document

namespace Highlight
open Token Grammar Document

variable {first second : String} {mark : Token} {number : Nat}

theorem margin_seam (first : String) : Margin (seam first) (first.toList.count '\n' + 1) := by
  have margin := margin_after (first.toList ++ [';'])
  rw [List.append_assoc] at margin
  simpa using margin

theorem category_last (text : String) : (parse limits text).stream.last.category ≠ .comment := by
  have closing := (isEnd_iff_category _).mp (Stream.isEnd_last text.toList)
  intro comment
  cases closing.symm.trans comment

/-- The comments of joined texts are those of the first and, further down, those of the second. -/
theorem ofComments_joined (tokens : Joined limits first second mark number) :
    ofComments (parse limits (joined first second)).stream.toList =
      ofComments (parse limits first).stream.toList ++
        (ofComments (parse limits second).stream.toList).map
        (lower (first.toList.count '\n' + 1)) := by
  have plain : mark.category ≠ .comment := by simp [Token.category, tokens.semicolon, Kind.category]
  have all : (Stream.prepend ((parse limits first).stream.body ++ [mark])
      ((parse limits second).stream.relocate (seam first) number)).toList =
        (parse limits first).stream.body ++ ([mark] ++
          (parse limits second).stream.toList.map (Token.relocate (seam first) number)) := by
    simp [Stream.prepend, Stream.toList, Stream.relocate]
  have same := (Stream.filter_of_sameShown tokens.shown (fun token => token.category = .comment)
    fun token blank => by simp [Token.category, blank, Kind.category]).2
  have closing : ofComments (parse limits first).stream.toList =
      ofComments (parse limits first).stream.body := by
    rw [Stream.toList, ofComments_append, ofComments_singleton (category_last first),
      List.append_nil]
  have counted : ∀ token ∈ (parse limits second).stream.toList, 1 ≤ token.place.line :=
    fun _ => counted_of_mem
  rw [ofComments, same, all, ← ofComments, ofComments_append, ofComments_append,
    ofComments_singleton plain, List.nil_append,
    ofComments_relocate (margin_seam first) counted, closing]

/-- The tree of joined documents is coloured as that of the first and, further down, that of the
second. -/
theorem ofTree_joined (tokens : Joined limits first second mark number)
    (before : ∃ found state,
      derive limits (parse limits first).stream.visible.toArray = .ok (found, state))
    (after : ∃ found state,
      derive limits (parse limits second).stream.visible.toArray = .ok (found, state))
    (ran : ∃ found state,
      derive limits (parse limits (joined first second)).stream.visible.toArray =
        .ok (found, state))
    (document : Word cypher (.reference Grammar.start) (visibleKinds (parse limits first).stream))
    (other : Word cypher (.reference Grammar.start) (visibleKinds (parse limits second).stream))
    (both : Word cypher (.reference Grammar.start)
      (visibleKinds (parse limits (joined first second)).stream))
    (inside : (visibleKinds (parse limits first).stream).getLast? ≠ some separator) :
    ofTree none (parse limits (joined first second)).tree = ofTree none (parse limits first).tree ++
      (ofTree none (parse limits second).tree).map (lower (first.toList.count '\n' + 1)) := by
  obtain ⟨one, statements, readFirst, treeFirst⟩ := tree_of_document before document
  obtain ⟨two, others, readSecond, treeSecond⟩ := tree_of_document after other
  obtain ⟨three, all, readBoth, treeBoth⟩ := tree_of_document ran both
  have closed (text : String) : (parse limits text).stream.last.isEnd :=
    Stream.isEnd_last text.toList
  have within := leaves_of_document readFirst
  rw [visibleKinds_joined tokens] at readBoth
  have derived := reading_joined readFirst inside readSecond readBoth
  rw [List.length_map] at derived
  have semicolon : ofTrees none [.leaf mark] = [] := by
    simp [ofTrees, ofTree, ofLeaf, colour?, Token.isEnd, Token.category, tokens.semicolon,
      Kind.category, categoryColour?]
  rw [treeBoth, treeFirst, treeSecond, ofTree_plant (closed _), ofTree_plant (closed _),
    ofTree_plant (closed _), derived, visible_joined tokens, trees_joined within,
    ofTrees_append, ofTrees_append, semicolon, List.append_nil,
    ofTrees_relocate (margin_seam first) _ none (counted_of_derivations second others)]

/-- Colouring and checking are local to statements. Two documents without problems, joined by a
semicolon and a newline, make up a document without problems, unless they nest too deeply together;
and it is coloured as the first and, below it, as the second. Each has visible tokens, and the first
ends neither with a semicolon nor with a comment that would take the semicolon in. -/
theorem ofDocument_joined (valid : (parse limits first).issues = [])
    (validToo : (parse limits second).issues = [])
    (begun : (parse limits first).stream.visible ≠ [])
    (begunToo : (parse limits second).stream.visible ≠ [])
    (unclosed : (parse limits first).stream.visible.getLast?.map (·.kind) ≠ some separator)
    (apart : (parse limits first).stream.body.getLast?.map (·.kind) ≠ some .lineComment)
    (shallow : ∀ issue ∈ (parse limits (first ++ ";\n" ++ second)).issues,
      issue.problem ≠ .tooDeep) :
    (parse limits (first ++ ";\n" ++ second)).issues = [] ∧
      ofDocument (parse limits (first ++ ";\n" ++ second)) = ofDocument (parse limits first) ++
        (ofDocument (parse limits second)).map (lower (first.toList.count '\n' + 1)) := by
  obtain ⟨whole, document⟩ := document_of_valid valid begun
  obtain ⟨wholeToo, other⟩ := document_of_valid validToo begunToo
  obtain ⟨mark, number, tokens⟩ := exists_joined ⟨whole, apart⟩ second
  have inside : (visibleKinds (parse limits first).stream).getLast? ≠ some separator := by
    rwa [visibleKinds, List.getLast?_map]
  have both : Word cypher (.reference Grammar.start)
      (visibleKinds (parse limits (joined first second)).stream) := by
    rw [visibleKinds_joined tokens, List.append_assoc, List.singleton_append]
    exact script_iff.mpr (script_append (script_iff.mp document) inside (script_iff.mp other))
  have ran := (not_tooDeep_iff (joined first second)).mp shallow
  refine ⟨Diagnostic.issues_of_document ran (tokens.shown.unterminated.trans wholeToo) both, ?_⟩
  refine eq_of_perm ?_ (pairwise_precedes limits _) ?_ fun piece => length_pos_of_mem
  · have all := ofDocument_perm (parse limits (joined first second))
    rw [ofTree_joined tokens (derive_of_valid valid) (derive_of_valid validToo) ran document other
      both inside, ofComments_joined tokens, List.append_assoc] at all
    have apart := (ofDocument_perm (parse limits first)).append
      ((ofDocument_perm (parse limits second)).map (lower (first.toList.count '\n' + 1)))
    rw [List.map_append, List.append_assoc] at apart
    exact all.trans (((List.perm_append_comm_assoc ..).append_left _).trans apart.symm)
  · refine List.pairwise_append.mpr
      ⟨pairwise_precedes limits first, ?_, fun one before two after => ?_⟩
    · refine List.pairwise_map.mpr ((pairwise_precedes limits second).imp fun ordered => ?_)
      unfold Precedes at ordered
      unfold Precedes lower
      simp only
      omega
    · obtain ⟨piece, -, rfl⟩ := List.mem_map.mp after
      obtain ⟨line, found, -⟩ := line_of_mem before
      have above := (List.getElem?_eq_some_iff.mp found).1
      rw [Text.length_splitLines] at above
      exact .inl (by simp only [lower]; omega)

/-- A comment that its line ends leaves the semicolon to the statement. -/
theorem returns_joined :
    (parse ⟨3000, 3000⟩ "RETURN n // name\n").issues = [] ∧
    (parse ⟨3000, 3000⟩ "RETURN 1").issues = [] ∧
      (parse ⟨3000, 3000⟩ ("RETURN n // name\n" ++ ";\n" ++ "RETURN 1")).issues = [] ∧
      ofDocument (parse ⟨3000, 3000⟩ ("RETURN n // name\n" ++ ";\n" ++ "RETURN 1")) =
        ofDocument (parse ⟨3000, 3000⟩ "RETURN n // name\n") ++
          (ofDocument (parse ⟨3000, 3000⟩ "RETURN 1")).map (lower 2) := by
  have valid : (parse ⟨3000, 3000⟩ "RETURN n // name\n").issues = [] := by
    have kinds : visibleKinds (parse ⟨3000, 3000⟩ "RETURN n // name\n").stream =
        [.keyword .RETURN, .plainName] := by decide +kernel
    exact Diagnostic.issues_of_document (derive_of_short (by decide +kernel)) (by decide +kernel)
      (by rw [kinds]; decide +kernel)
  have validToo : (parse ⟨3000, 3000⟩ "RETURN 1").issues = [] := by
    have kinds : visibleKinds (parse ⟨3000, 3000⟩ "RETURN 1").stream =
        [.keyword .RETURN, .integer] := by
      decide +kernel
    exact Diagnostic.issues_of_document (derive_of_short (by decide +kernel)) (by decide +kernel)
      (by rw [kinds]; decide +kernel)
  have shallow : ∀ issue ∈
      (parse ⟨3000, 3000⟩ ("RETURN n // name\n" ++ ";\n" ++ "RETURN 1")).issues,
      issue.problem ≠ .tooDeep :=
    (not_tooDeep_iff _).mpr (derive_of_short (by decide +kernel))
  exact ⟨valid, validToo, ofDocument_joined valid validToo (by decide +kernel) (by decide +kernel)
    (by decide +kernel) (by decide +kernel) shallow⟩

end Highlight

end CypherAssist
