import CypherAssist.Grammar.Candidate
import CypherAssist.Proofs.Token.Boundary

/-! The same text read elsewhere. Where a text is read behind another one, its tokens are the same
but for their places and their numbers, and so are those that stand before a caret in it. -/
namespace CypherAssist.Token

namespace Cursor

/-- The place of a cursor once the text that it belongs to starts at another place. -/
def behind (base cursor : Cursor) : Cursor where
  offset := base.offset + cursor.offset
  line := base.line + cursor.line - 1
  column := if cursor.line = 1 then base.column + cursor.column else cursor.column

theorem line_advance (cursor : Cursor) (c : Char) : cursor.line ≤ (cursor.advance c).line := by
  unfold advance
  split <;> simp

theorem behind_advance (base : Cursor) {cursor : Cursor} (counted : 1 ≤ cursor.line) (c : Char) :
    base.behind (cursor.advance c) = (base.behind cursor).advance c := by
  unfold advance behind
  by_cases newline : c = '\n'
  · have onward : cursor.line ≠ 0 := Nat.ne_of_gt counted
    simp [newline, onward, Nat.add_assoc, Nat.sub_add_cancel (Nat.le_add_left_of_le counted)]
  · by_cases first : cursor.line = 1
    · simp [newline, first, Nat.add_assoc]
    · simp [newline, first, Nat.add_assoc]

/-- Moving on is the same wherever the text starts. -/
theorem behind_after (base : Cursor) {cursor : Cursor} (counted : 1 ≤ cursor.line)
    (text : List Char) :
    base.behind (cursor.after text) = (base.behind cursor).after text ∧
      1 ≤ (cursor.after text).line := by
  induction text generalizing cursor with
  | nil => exact ⟨rfl, counted⟩
  | cons c rest ih =>
    have onward := ih (Nat.le_trans counted (line_advance cursor c))
    rwa [behind_advance base counted] at onward

end Cursor

/-- A token of a text that is read elsewhere, behind so many tokens. -/
def relocate (base : Cursor) (first : Nat) (token : Token) : Token :=
  { token with place := base.behind token.place, index := first + token.index }

section
variable (base : Cursor) (first : Nat) (token : Token)

@[simp] theorem kind_relocate : (token.relocate base first).kind = token.kind := rfl

@[simp] theorem lexeme_relocate : (token.relocate base first).lexeme = token.lexeme := rfl

@[simp] theorem index_relocate : (token.relocate base first).index = first + token.index := rfl

@[simp] theorem isHidden_relocate : (token.relocate base first).isHidden = token.isHidden := rfl

@[simp] theorem isEnd_relocate : (token.relocate base first).isEnd = token.isEnd := rfl

@[simp] theorem text_relocate : (token.relocate base first).text = token.text := rfl

end

namespace Stream

/-- The tokens of a text that is read elsewhere. -/
def relocate (base : Cursor) (first : Nat) (stream : Stream) : Stream where
  body := stream.body.map (Token.relocate base first)
  last := stream.last.relocate base first
  unterminated? := stream.unterminated?

/-- Reading a text from another place relocates its tokens. -/
theorem readFrom_relocate (base : Cursor) (first : Nat) {cursor : Cursor}
    (counted : 1 ≤ cursor.line) (index : Nat) (text : List Char) :
    readFrom (base.behind cursor) (first + index) text =
      (readFrom cursor index text).relocate base first := by
  fun_induction readFrom cursor index text with
  | case1 => simp [readFrom, relocate, Token.relocate]
  | case2 cursor index c rest what starts =>
    rw [readFrom]
    split
    · rename_i other
      rw [starts] at other
      cases other
      rfl
    · rename_i other
      rw [starts] at other
      cases other
  | case3 cursor index c rest kind length starts lexeme following ih =>
    obtain ⟨place, onward⟩ := Cursor.behind_after base counted lexeme
    rw [readFrom_cons starts, ← place, Nat.add_assoc, ih onward]
    rfl

/-- Behind a text that is read to its end and closed by a semicolon, the tokens are those that the
rest has as a text of its own. -/
theorem ofText_append {text : List Char} (whole : (ofText text).unterminated? = none)
    (closing : (ofText text).body.getLast?.map (·.kind) = some (.symbol .semicolon))
    (more : List Char) :
    ofText (text ++ more) = prepend (ofText text).body
      ((ofText more).relocate (Cursor.after {} text) (ofText text).body.length) := by
  have onward := @readFrom_relocate (Cursor.after {} text) (ofText text).body.length {}
    (Nat.le_refl 1) 0 more
  rw [ofText, readFrom_append_of_semicolon whole closing, Nat.zero_add]
  exact congrArg _ onward

end Stream

end CypherAssist.Token

namespace CypherAssist.Grammar
open Token

/-! ## The tokens up to the caret -/

theorem tokensUntil_relocate (base : Cursor) (first index : Nat) (tokens : List Token) :
    tokensUntil (first + index) (tokens.map (Token.relocate base first)) =
      (tokensUntil index tokens).map (Token.relocate base first) := by
  induction tokens with
  | nil => rfl
  | cons token rest ih =>
    simp only [List.map_cons, tokensUntil, isHidden_relocate, isEnd_relocate, index_relocate,
      Nat.add_le_add_iff_left, ih]
    split
    · rfl
    · split <;> rfl

/-- Tokens ahead of the caret are kept, but for the hidden ones. -/
theorem tokensUntil_append {index : Nat} {front rest : List Token}
    (ahead : ∀ token ∈ front, token.index < index ∧ token.isEnd = false) :
    tokensUntil index (front ++ rest) =
      (front.filter fun token => !token.isHidden) ++ tokensUntil index rest := by
  induction front with
  | nil => rfl
  | cons token others ih =>
    have here := ahead token (by simp)
    have later := ih fun other member => ahead other (List.mem_cons_of_mem _ member)
    rw [List.cons_append, tokensUntil, here.2, Bool.or_false,
      decide_eq_false (Nat.not_le.mpr here.1), later]
    cases hidden : token.isHidden <;> simp [hidden]

end CypherAssist.Grammar
