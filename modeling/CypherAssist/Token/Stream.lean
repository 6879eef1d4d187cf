import CypherAssist.Token.Basic
import CypherAssist.Token.Lexeme

/-! Token streams. Reading a text never fails: a character that starts no token becomes an error
token, and a construct that is never closed ends the stream early, the closing token covering all
that was not read. -/
namespace CypherAssist.Token

/-- The tokens of a text in order, hidden ones included, the token that closes the stream, and the
construct that cut the reading short. -/
structure Stream where
  body : List Token
  last : Token
  unterminated? : Option Unterminated
  deriving DecidableEq, Repr

namespace Stream

/-- Reads on from a place in the text. Every lexeme takes its first character, so what is left
gets shorter. -/
def readFrom (cursor : Cursor) (index : Nat) (text : List Char) : Stream :=
  match text with
  | [] => ⟨[], ⟨.endOfFile, [], cursor, index⟩, none⟩
  | c :: rest =>
    match Lexeme.next (c :: rest) with
    | .unterminated what => ⟨[], ⟨.endOfFile, c :: rest, cursor, index⟩, some what⟩
    | .token kind length =>
      let lexeme := c :: rest.take (length - 1)
      let following := readFrom (cursor.after lexeme) (index + 1) (rest.drop (length - 1))
      { following with body := ⟨kind, lexeme, cursor, index⟩ :: following.body }
termination_by text.length
decreasing_by simp only [List.length_cons, List.length_drop]; omega

/-- The token stream of a text. -/
def ofText (text : List Char) : Stream :=
  readFrom {} 0 text

/-- All tokens, the closing one last. -/
def toList (stream : Stream) : List Token :=
  stream.body ++ [stream.last]

/-- The tokens that the grammar sees. -/
def visible (stream : Stream) : List Token :=
  stream.body.filter fun token => !token.isHidden

/-- The text was read to its end. -/
def isWhole (stream : Stream) : Bool :=
  stream.last.text = endText

end Stream

end CypherAssist.Token
