import CypherAssist.Proofs.Document.Highlighting

/-! Coloured pieces as numbers. A client adds up the distances that it is sent and has the pieces
again, in whatever order they are listed. The pieces of a document are listed in order and no two
begin at one place, so none of its distances leads back, and from one piece to the next on its line
there always is one. -/
namespace CypherAssist.Highlight
open Token Grammar

variable {limits : Limits}

variable {pieces : List Highlight} {line start : Nat}

/-! ## What a client reads -/

/-- The piece at a place, with a length and the number of a colour. No piece lies ahead of the
document or of its line, is shorter than nothing or has a colour that the legend does not list. -/
def ofNumbers? (line start length colour : Int) : Option Highlight := do
  return ⟨← line.toNat?, ← start.toNat?, ← length.toNat?, ← legend[← colour.toNat?]?⟩

/-- Reads pieces from the place of the one before, five numbers for each: lines to move on, then
columns to move on from the start of the piece before, or from the margin on another line, then
length, colour and modifiers, which pieces do not have. -/
def decodeFrom (line start : Int) : List Int → Option (List Highlight)
  | [] => some []
  | lines :: columns :: length :: colour :: _ :: rest => do
    let start := if lines = 0 then start + columns else columns
    let piece ← ofNumbers? (line + lines) start length colour
    let others ← decodeFrom (line + lines) start rest
    return piece :: others
  | _ => none

/-- The pieces that a client reads out of the numbers it is sent. -/
def decode (numbers : List Int) : Option (List Highlight) := decodeFrom 0 0 numbers

/-- A colour has its own number. -/
theorem legend_colourIndex {colour : String} (known : colour ∈ legend) :
    legend[colourIndex colour]? = some colour := by
  have checked : ∀ colour ∈ legend, legend[colourIndex colour]? = some colour := by decide
  exact checked colour known

/-- A piece is made again of its own numbers. -/
theorem ofNumbers?_self {piece : Highlight} (known : piece.colour ∈ legend) :
    ofNumbers? piece.line piece.start piece.length (colourIndex piece.colour) = some piece := by
  simp [ofNumbers?, Int.toNat?, legend_colourIndex known]

/-- From any place on, what is read is what was written there, sorted or not. -/
theorem decodeFrom_encodeFrom (known : ∀ piece ∈ pieces, piece.colour ∈ legend) (line start : Nat) :
    decodeFrom line start (encodeFrom line start pieces) = some pieces := by
  induction pieces generalizing line start with
  | nil => rfl
  | cons piece rest ih =>
    obtain ⟨here, later⟩ := List.forall_mem_cons.mp known
    have lines : (line : Int) + ((piece.line : Int) - line) = piece.line := by omega
    have columns : (if (piece.line : Int) - line = 0 then
        (start : Int) + (if (piece.line : Int) - line = 0 then (piece.start : Int) - start
          else piece.start)
        else (if (piece.line : Int) - line = 0 then (piece.start : Int) - start
          else piece.start)) = piece.start := by
      split <;> omega
    simp only [encodeFrom, decodeFrom, lines, columns, ofNumbers?_self here, ih later,
      Option.pure_def, Option.bind_eq_bind, Option.bind_some]

/-! ## Distances -/

/-- A piece begins behind a place. -/
def Behind (line start : Nat) (piece : Highlight) : Prop :=
  line < piece.line ∨ line = piece.line ∧ start < piece.start

/-- The numbers lead on: none is negative, and where a piece is no line behind the one before it,
it is some columns behind. -/
structure LeadsOn (numbers : List Int) : Prop where
  forward : ∀ number ∈ numbers, 0 ≤ number
  apart : ∀ index, numbers[5 * index]? = some 0 →
    ∃ columns, numbers[5 * index + 1]? = some columns ∧ 0 < columns

theorem leadsOn_cons {lines columns length colour modifiers : Int} {rest : List Int}
    (forward : ∀ number ∈ [lines, columns, length, colour, modifiers], 0 ≤ number)
    (apart : lines = 0 → 0 < columns) (behind : LeadsOn rest) :
    LeadsOn (lines :: columns :: length :: colour :: modifiers :: rest) := by
  refine ⟨?_, ?_⟩
  · intro number member
    rw [show lines :: columns :: length :: colour :: modifiers :: rest =
      [lines, columns, length, colour, modifiers] ++ rest from rfl, List.mem_append] at member
    exact member.elim (forward number) (behind.forward number)
  · intro index none
    cases index with
    | zero => exact ⟨columns, rfl, apart (by simpa using none)⟩
    | succ index =>
      rw [show 5 * (index + 1) = 5 * index + 5 by omega] at none ⊢
      exact behind.apart index none

/-- Pieces that ascend from a place on have numbers that lead on. -/
theorem leadsOn_encodeFrom (behind : ∀ piece ∈ pieces, Behind line start piece)
    (ascending : pieces.Pairwise fun one other => Behind one.line one.start other) :
    LeadsOn (encodeFrom line start pieces) := by
  induction pieces generalizing line start with
  | nil => exact ⟨nofun, nofun⟩
  | cons piece rest ih =>
    obtain ⟨first, later⟩ := List.pairwise_cons.mp ascending
    have here := behind piece List.mem_cons_self
    unfold Behind at here
    refine leadsOn_cons ?_ ?_ (ih first later)
    · simp only [List.forall_mem_cons, List.not_mem_nil, false_imp_iff, implies_true, and_true]
      refine ⟨by omega, ?_, by omega, by omega, by omega⟩
      split <;> omega
    · intro same
      rw [if_pos same]
      omega

/-! ## Documents -/

variable {text : String} {piece : Highlight}

theorem mem_legend_of_ruleColour? {rule : Rule} {colour : String}
    (tinted : ruleColour? rule = some colour) : colour ∈ legend := by
  have checked : ∀ rule ∈ Rule.all, ∀ colour ∈ ruleColour? rule, colour ∈ legend := by decide
  exact checked rule (Rule.mem_all rule) colour tinted

theorem mem_legend_of_categoryColour? {category : Category} {colour : String}
    (own : categoryColour? category = some colour) : colour ∈ legend := by
  cases category with
  | keyword | operator | stringLiteral | numberLiteral | comment => cases own; decide
  | _ => cases own

/-- Every colour given out is in the legend. -/
theorem colour_mem_legend (member : piece ∈ ofDocument (Document.parse limits text)) :
    piece.colour ∈ legend := by
  obtain ⟨token, above, colour, -, colours, number, part, -, -, rfl⟩ := (mem_ofDocument _).mp member
  cases colours with
  | rule _ _ tinted =>
    obtain ⟨rule, -, tint⟩ := Option.bind_eq_some_iff.mp tinted
    exact mem_legend_of_ruleColour? tint
  | category _ own => exact mem_legend_of_categoryColour? own

/-- Of two pieces of a document, the later begins behind the start of the earlier. -/
theorem pairwise_behind (limits : Limits) (text : String) :
    (ofDocument (Document.parse limits text)).Pairwise
      fun one other => Behind one.line one.start other := by
  refine (pairwise_precedes limits text).imp_of_mem ?_
  intro one other first second precedes
  have positive := length_pos_of_mem first
  unfold Precedes at precedes
  unfold Behind
  omega

/-- The numbers of a document are never negative, and every piece but the first begins on a later
line than the one before it, or behind its start. -/
theorem tokensOf_leadsOn (limits : Limits) (text : String) :
    (∀ number ∈ tokensOf limits text, 0 ≤ number) ∧ ∀ index, 0 < index →
    (tokensOf limits text)[5 * index]? = some 0 →
      ∃ columns, (tokensOf limits text)[5 * index + 1]? = some columns ∧ 0 < columns := by
  have ordered := pairwise_behind limits text
  rw [tokensOf, encode]
  cases pieces : ofDocument (Document.parse limits text) with
  | nil => exact ⟨nofun, nofun⟩
  | cons first rest =>
    rw [pieces] at ordered
    obtain ⟨behind, ascending⟩ := List.pairwise_cons.mp ordered
    obtain ⟨forward, apart⟩ := leadsOn_encodeFrom behind ascending
    refine ⟨?_, ?_⟩
    · -- The first piece counts from the beginning of the document, where it may lie itself.
      intro number member
      simp only [encodeFrom, List.mem_cons] at member
      rcases member with rfl | rfl | rfl | rfl | rfl | later
      · omega
      · split <;> omega
      · omega
      · omega
      · omega
      · exact forward number later
    · intro index other none
      obtain ⟨index, rfl⟩ := Nat.exists_eq_add_of_lt other
      rw [show 5 * (0 + index + 1) = 5 * index + 5 by omega] at none ⊢
      exact apart index none

/-- Pieces with colours of the legend come through their numbers unchanged, sorted or not. The
pieces of a document have such colours, and their numbers lead on from each piece to the next. -/
theorem decode_encode : (∀ pieces : List Highlight, (∀ piece ∈ pieces, piece.colour ∈ legend) →
      decode (encode pieces) = some pieces) ∧
    ∀ limits text, decode (tokensOf limits text) = some (ofDocument (Document.parse limits text)) ∧
      (∀ number ∈ tokensOf limits text, 0 ≤ number) ∧
      ∀ index, 0 < index → (tokensOf limits text)[5 * index]? = some 0 →
        ∃ columns, (tokensOf limits text)[5 * index + 1]? = some columns ∧ 0 < columns := by
  refine ⟨fun pieces known => decodeFrom_encodeFrom known 0 0, ?_⟩
  intro limits text
  exact ⟨decodeFrom_encodeFrom (fun piece => colour_mem_legend) 0 0, tokensOf_leadsOn limits text⟩

/-- A keyword and two names, the second of which stands on its own line ahead of them. -/
def unsorted : List Highlight :=
  [⟨2, 4, 5, "keyword"⟩, ⟨2, 1, 2, "variable"⟩, ⟨0, 3, 1, "label"⟩]

/-- Pieces that are not sorted have distances that lead back, and are read all the same. -/
theorem unsorted_returns : (∀ piece ∈ unsorted, piece.colour ∈ legend) ∧
    encode unsorted = [2, 4, 5, 2, 0, 0, -3, 2, 17, 0, -2, 3, 1, 20, 0] ∧
    decode (encode unsorted) = some unsorted := by
  have known : ∀ piece ∈ unsorted, piece.colour ∈ legend := by decide
  exact ⟨known, by decide, decode_encode.1 unsorted known⟩

end CypherAssist.Highlight
