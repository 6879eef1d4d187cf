import CypherAssist.Proofs.Token.Munch
import CypherAssist.Proofs.Token.Position
import CypherAssist.Proofs.Token.Relocation

/-! Texts cut where a token starts. A lexeme is the longest one of all that follows, so it stays the
longest where less follows; and what is read behind a cut does not depend on what stands in front of
it but for the places. Reading a text is therefore reading the two parts of it. -/
namespace CypherAssist.Token
open Lexeme

variable {text longer rest lexeme more : List Char} {kind : Kind} {length : Nat}

/-! ## Lexemes with less behind them -/

/-- A text starts with one lexeme only. -/
theorem munches_unique {one two : Lexeme} (munches : Munches text one) (also : Munches text two) :
    one = two := by
  cases munches with
  | unterminated opened =>
    cases also with
    | unterminated other =>
      have same := (leftOpen_iff.mp opened).2.symm.trans (leftOpen_iff.mp other).2
      exact congrArg _ (Option.some.inj same)
    | longest shut | error shut => exact absurd opened (shut _)
  | longest shut starts spelt most =>
    cases also with
    | unterminated opened => exact absurd opened (shut _)
    | longest _ begins also further =>
      rcases most _ _ begins also with shorter | ⟨rfl, rfl⟩
      · rcases further _ _ starts spelt with shorterToo | ⟨rfl, rfl⟩
        · omega
        · rfl
      · rfl
    | error _ _ none => exact absurd spelt (none _ _ starts)
  | error shut _ none =>
    cases also with
    | unterminated opened => exact absurd opened (shut _)
    | longest _ begins also => exact absurd also (none _ _ begins)
    | error => rfl

/-- The text begins a longer one, and every lexeme that starts the longer one ends within it. -/
structure Holds (text longer : List Char) : Prop where
  begins : text <+: longer
  inside : ∀ kind lexeme, lexeme <+: longer → Spelt kind lexeme → lexeme <+: text

theorem leftOpen_of_holds {what : Unterminated} (holds : Holds text longer)
    (opened : LeftOpen text what) : LeftOpen longer what := by
  have never {kind : Kind} (open? : ∀ lexeme, lexeme <+: text → ¬ Spelt kind lexeme)
      (lexeme : List Char) (starts : lexeme <+: longer) : ¬ Spelt kind lexeme := fun spelt =>
    open? lexeme (holds.inside kind lexeme starts spelt) spelt
  cases opened with
  | blockComment mark open? => exact .blockComment (mark.trans holds.begins) (never open?)
  | singleQuoted mark open? => exact .singleQuoted (mark.trans holds.begins) (never open?)
  | doubleQuoted mark open? => exact .doubleQuoted (mark.trans holds.begins) (never open?)
  | quotedName mark open? => exact .quotedName (mark.trans holds.begins) (never open?)

/-- Where no lexeme is lost, the longest one stays the longest. -/
theorem munches_of_holds (holds : Holds text longer) (some : text ≠ [])
    (munches : Munches longer (.token kind length)) : Munches text (.token kind length) := by
  cases munches with
  | longest shut starts spelt most =>
    exact .longest (fun what opened => shut what (leftOpen_of_holds holds opened))
      (holds.inside _ _ starts spelt) spelt fun other lexeme begins =>
        most other lexeme (begins.trans holds.begins)
  | error shut _ none =>
    exact .error (fun what opened => shut what (leftOpen_of_holds holds opened)) some
      fun other lexeme begins => none other lexeme (begins.trans holds.begins)

/-- No lexeme reaches further than the one that is read. -/
theorem length_le_of_munches (munches : Munches text (.token kind length))
    (starts : lexeme <+: text) (spelt : Spelt other lexeme) : lexeme.length ≤ length := by
  cases munches with
  | longest _ _ _ most =>
    rcases most other lexeme starts spelt with shorter | ⟨rfl, -⟩
    · exact Nat.le_of_lt shorter
    · exact Nat.le_refl _
  | error _ _ none => exact absurd spelt (none other lexeme starts)

/-- A lexeme is read alike where less stands behind it. -/
theorem next_of_begins (some : lexeme ≠ [])
    (starts : next (lexeme ++ rest) = .token kind lexeme.length) (begins : more <+: rest) :
    next (lexeme ++ more) = .token kind lexeme.length := by
  have munches := munches_next (List.append_ne_nil_of_left_ne_nil some rest)
  rw [starts] at munches
  have within : lexeme ++ more <+: lexeme ++ rest :=
    (List.prefix_append_right_inj lexeme).mpr begins
  have holds : Holds (lexeme ++ more) (lexeme ++ rest) := by
    refine ⟨within, fun other chars starts spelt => ?_⟩
    have short := length_le_of_munches munches starts spelt
    refine List.prefix_of_prefix_length_le starts within ?_
    rw [List.length_append]
    omega
  have nonempty : lexeme ++ more ≠ [] := List.append_ne_nil_of_left_ne_nil some more
  exact munches_unique (munches_next nonempty) (munches_of_holds holds nonempty munches)

/-! ## Tokens further on -/

/-- A token of a text that starts so many characters and lines further on, at a column, behind so
many tokens. Only on its first line columns count from there. -/
def further (offset lines column count : Nat) (token : Token) : Token where
  kind := token.kind
  lexeme := token.lexeme
  place :=
    { offset := offset + token.start
      line := lines + token.line
      column := if token.line = 1 then column + token.column else token.column }
  index := count + token.index

/-- To read a text elsewhere is to find its tokens further on. -/
theorem relocate_eq_further {base : Cursor} {lines : Nat} (line : base.line = 1 + lines)
    (count : Nat) (token : Token) :
    token.relocate base count = token.further base.offset lines base.column count := by
  have onward : base.line + token.line - 1 = lines + token.line := by omega
  have place : base.behind token.place =
      (token.further base.offset lines base.column count).place :=
    congrArg (Cursor.mk _ · _) onward
  rw [relocate, place]
  rfl

namespace Stream

variable {cursor : Cursor} {index : Nat} {chars : List Char} {before after : List Token}

/-! ## Streams in two parts -/

/-- The first of all tokens stands where reading starts. -/
theorem head?_readFrom (cursor : Cursor) (index : Nat) (chars : List Char) :
    (readFrom cursor index chars).toList.head?.map (·.place) = some cursor := by
  induction cursor, index, chars using readFrom_induction with
  | nothing | opened | token => rfl

/-- The first tokens of a text are read as they are with less behind them, and so is that. -/
theorem readFrom_of_split (split : (readFrom cursor index chars).body = before ++ after) :
    ∃ rest, chars = before.flatMap (·.lexeme) ++ rest ∧
      ∀ more, more <+: rest → readFrom cursor index (before.flatMap (·.lexeme) ++ more) =
        prepend before
          (readFrom (cursor.after (before.flatMap (·.lexeme))) (index + before.length) more) := by
  induction before generalizing cursor index chars with
  | nil => exact ⟨chars, rfl, fun more _ => rfl⟩
  | cons token before ih =>
    obtain ⟨some, -, rest, same, starts⟩ := @reads_of_split _ _ _ _ [] _ split
    rw [List.flatMap_nil, List.nil_append] at same
    subst same
    rw [readFrom_append some starts] at split
    obtain ⟨here, later⟩ := List.cons.inj split
    obtain ⟨tail, same, onward⟩ := ih later
    refine ⟨tail, by rw [same, List.flatMap_cons, List.append_assoc], fun more begins => ?_⟩
    have within : before.flatMap (·.lexeme) ++ more <+: rest :=
      same ▸ (List.prefix_append_right_inj _).mpr begins
    rw [List.flatMap_cons, List.append_assoc,
      readFrom_append some (next_of_begins some starts within), onward more begins, here]
    simp [prepend, Nat.add_assoc, Nat.add_comm 1]

/-- The tokens that start in front of an offset. -/
def tokensBefore (stream : Stream) (offset : Nat) : List Token :=
  stream.toList.filter (·.start < offset)

/-- The tokens that start at an offset or behind it. -/
def tokensFrom (stream : Stream) (offset : Nat) : List Token :=
  stream.toList.filter (offset ≤ ·.start)

/-- A text cut where a token starts. The text in front of the cut is read to its end, into the
tokens in front; the tokens from the cut on, and what is wrong with them, are those of the text
behind it, as many characters, lines and tokens further on as stand in front. -/
structure CutAt (text : List Char) (boundary : Token) : Prop where
  front : (ofText (text.take boundary.start)).toList = (ofText text).tokensBefore boundary.start ++
    [⟨.endOfFile, [], boundary.place, ((ofText text).tokensBefore boundary.start).length⟩]
  regular : (ofText (text.take boundary.start)).isWhole ∧
    Document.lexicalIssues (ofText (text.take boundary.start)) = []
  behind : (ofText text).tokensFrom boundary.start = (ofText (text.drop boundary.start)).toList.map
    (further boundary.start ((text.take boundary.start).count '\n') boundary.column
      ((ofText text).tokensBefore boundary.start).length)
  issues : Document.lexicalIssues (ofText text) =
    (Document.lexicalIssues (ofText (text.drop boundary.start))).map fun issue =>
      ⟨issue.problem, issue.token.further boundary.start
        ((text.take boundary.start).count '\n') boundary.column
        ((ofText text).tokensBefore boundary.start).length⟩

/-- What is read in front of a token, and the text from there on. -/
theorem exists_front_of_mem {boundary : Token} (member : boundary ∈ (ofText chars).toList) :
    ∃ before rest, chars = before.flatMap (·.lexeme) ++ rest ∧
      boundary.place = Cursor.after {} (before.flatMap (·.lexeme)) ∧
      ∀ more, more <+: rest → ofText (before.flatMap (·.lexeme) ++ more) = prepend before
        ((ofText more).relocate (Cursor.after {} (before.flatMap (·.lexeme))) before.length) := by
  obtain ⟨before, after, body, first⟩ : ∃ before after, (ofText chars).body = before ++ after ∧
      (after ++ [(ofText chars).last]).head? = some boundary := by
    rcases List.mem_append.mp member with inside | closing
    · obtain ⟨before, after, body⟩ := List.append_of_mem inside
      exact ⟨before, boundary :: after, body, rfl⟩
    · obtain rfl := List.mem_singleton.mp closing
      exact ⟨(ofText chars).body, [], (List.append_nil _).symm, rfl⟩
  obtain ⟨rest, same, onward⟩ := readFrom_of_split body
  have here := onward rest (List.prefix_refl rest)
  rw [← same] at here
  refine ⟨before, rest, same, ?_, fun more begins => ?_⟩
  · have head := head?_readFrom (Cursor.after {} (before.flatMap (·.lexeme))) (0 + before.length)
      rest
    have later : (readFrom (Cursor.after {} (before.flatMap (·.lexeme))) (0 + before.length)
        rest).toList = after ++ [(ofText chars).last] := by
      rw [ofText, here, prepend] at body
      have tail := List.append_cancel_left body
      rw [toList, tail, ofText, here]
      rfl
    rw [later, first] at head
    exact Option.some.inj head
  · have elsewhere := @readFrom_relocate (Cursor.after {} (before.flatMap (·.lexeme))) before.length
      {} (Nat.le_refl 1) 0 more
    rw [ofText, onward more begins, Nat.zero_add]
    exact congrArg _ elsewhere

/-- Tokens in front of an offset and tokens from there on are told apart by where they start. -/
theorem tokens_apart {stream : Stream} {offset : Nat} (tokens : stream.toList = before ++ after)
    (early : ∀ token ∈ before, token.start < offset)
    (late : ∀ token ∈ after, offset ≤ token.start) :
    stream.tokensBefore offset = before ∧ stream.tokensFrom offset = after := by
  constructor
  · rw [tokensBefore, tokens, List.filter_append, List.filter_eq_self.mpr (by simpa using early),
      List.filter_eq_nil_iff.mpr (by simpa using late), List.append_nil]
  · rw [tokensFrom, tokens, List.filter_append, List.filter_eq_nil_iff.mpr (by simpa using early),
      List.filter_eq_self.mpr (by simpa using late), List.nil_append]

theorem start_lt_of_mem {front : List Char} {token : Token}
    (member : token ∈ (ofText front).body) :
    token.start < front.length := by
  obtain ⟨some, before, behind, same, place, -⟩ := reads_of_mem member
  have size := List.length_pos_iff.mpr some
  rw [start, place, Cursor.offset_after, same, List.length_append, List.length_append]
  simp only
  omega

/-- Reading a text is reading the part in front of a token and the part from there on. -/
theorem ofText_cut {text : List Char} {boundary : Token}
    (member : boundary ∈ (ofText text).toList) : CutAt text boundary := by
  obtain ⟨before, rest, same, place, onward⟩ := exists_front_of_mem member
  generalize written : before.flatMap (·.lexeme) = front at same place onward
  have start : boundary.start = front.length := by simp [Token.start, place]
  have taken : text.take boundary.start = front := by rw [start, same, List.take_left]
  have dropped : text.drop boundary.start = rest := by rw [start, same, List.drop_left]
  have whole := onward rest (List.prefix_refl rest)
  have alone := onward [] List.nil_prefix
  rw [← same] at whole
  rw [List.append_nil] at alone
  have moved : Token.relocate (Cursor.after {} front) before.length =
      further boundary.start (front.count '\n') boundary.column before.length := by
    funext token
    rw [relocate_eq_further (Cursor.line_after front), ← place]
    rfl
  have tokens : (ofText text).toList = before ++ (ofText rest).toList.map
      (further boundary.start (front.count '\n') boundary.column before.length) := by
    rw [whole, ← moved]
    simp [toList, prepend, relocate]
  have early : ∀ token ∈ before, token.start < boundary.start := fun token inside =>
    start ▸ start_lt_of_mem (alone ▸ List.mem_append_left _ inside)
  obtain ⟨first, second⟩ := tokens_apart tokens early fun token inside => by
    obtain ⟨other, -, rfl⟩ := List.mem_map.mp inside
    exact Nat.le_add_right ..
  have nothing : ofText [] = ⟨[], ⟨.endOfFile, [], {}, 0⟩, none⟩ := by simp [ofText, readFrom]
  refine ⟨?_, ?_, ?_, ?_⟩ <;> simp only [taken, dropped, first]
  · rw [alone, place, nothing, toList, prepend, relocate, List.map_nil, List.append_nil]
    rfl
  · rw [alone, nothing]
    exact ⟨rfl, rfl⟩
  · exact second
  · rw [whole, ← moved, Document.lexicalIssues, Document.lexicalIssues, List.map_map]
    rfl

/-- In front of a name that nothing closes, the name before it is read as it is there; the other one
is left open on the second line as it is on the first of its own. -/
theorem open_name_cut :
    ∃ boundary ∈ (ofText "//\n`a``b".toList).toList, boundary.start = 6 ∧
      boundary.isEnd ∧ CutAt "//\n`a``b".toList boundary := by
  obtain ⟨boundary, member, start, closes⟩ :
      ∃ boundary ∈ (ofText "//\n`a``b".toList).toList, boundary.start = 6 ∧ boundary.isEnd := by
    decide +kernel
  exact ⟨boundary, member, start, closes, ofText_cut member⟩

end Stream

end CypherAssist.Token
