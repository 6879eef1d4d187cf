import CypherAssist.Token.Kind

/-! Tokens and their places in the text. A token keeps the characters it covers, so the lexemes of
a stream put together are the text. -/
namespace CypherAssist

namespace Token

/-- A place in a text: characters before it, lines up to it counted from one, and characters since
the last newline. Only a newline starts a line. -/
structure Cursor where
  offset : Nat := 0
  line : Nat := 1
  column : Nat := 0
  deriving DecidableEq, Repr

namespace Cursor

/-- The place behind one more character. -/
def advance (cursor : Cursor) (c : Char) : Cursor :=
  if c = '\n' then ⟨cursor.offset + 1, cursor.line + 1, 0⟩
  else ⟨cursor.offset + 1, cursor.line, cursor.column + 1⟩

/-- The place behind a piece of text. -/
def after (cursor : Cursor) (text : List Char) : Cursor :=
  text.foldl advance cursor

/-- Moving over two pieces is moving over their concatenation. -/
@[simp] theorem after_append (cursor : Cursor) (first second : List Char) :
    cursor.after (first ++ second) = (cursor.after first).after second := by
  simp [after]

/-- The offset counts the characters passed. -/
@[simp] theorem offset_after (cursor : Cursor) (text : List Char) :
    (cursor.after text).offset = cursor.offset + text.length := by
  induction text generalizing cursor with
  | nil => rfl
  | cons c rest ih =>
    have step : cursor.after (c :: rest) = (cursor.advance c).after rest := rfl
    rw [step, ih, List.length_cons]
    unfold advance
    split <;> simp only [] <;> omega

end Cursor

end Token

/-- A lexical unit: its kind, the characters it covers, the place of the first of them, and its
index in the stream. -/
structure Token where
  kind : Token.Kind
  lexeme : List Char
  place : Token.Cursor
  index : Nat
  deriving DecidableEq, Repr

namespace Token

/-- The text shown for the end of a file that was read to its end. -/
def endText : String := "<EOF>"

/-- The text of a token. The closing token of a finished file covers nothing and has a text of
its own. -/
def text (token : Token) : String :=
  if token.kind = .endOfFile ∧ token.lexeme = [] then endText else String.ofList token.lexeme

/-- Offset of the first character. -/
def start (token : Token) : Nat := token.place.offset

/-- Offset of the last character, one before the start where the token covers nothing. -/
def stop (token : Token) : Int := token.start + token.lexeme.length - 1

/-- Line of the first character, counted from one. -/
def line (token : Token) : Nat := token.place.line

/-- Column of the first character, counted from zero. -/
def column (token : Token) : Nat := token.place.column

/-- Hidden tokens are not parsed. -/
def isHidden (token : Token) : Bool := token.kind.isHidden

/-- Whether the token closes the stream. -/
def isEnd (token : Token) : Bool := token.kind = .endOfFile

/-- The category of the kind. -/
def category (token : Token) : Category := token.kind.category

end Token

end CypherAssist
