/-! The text before a caret. Lines end with a carriage return, a newline, or both together. -/
namespace CypherAssist.Text

/-- A place in a document by line and character, both counted from zero. -/
structure Position where
  line : Nat
  character : Nat
  deriving DecidableEq, Repr

/-- Whether a character ends a line. -/
def isLineEnd (c : Char) : Bool := c == '\n' || c == '\r'

/-- Skips a number of lines, then takes characters of the line reached, at most all of them. Where
there are fewer lines the whole text is taken. -/
def untilCaret : Nat → Nat → List Char → List Char
  | 0, character, text => (text.takeWhile fun c => !isLineEnd c).take character
  | _ + 1, _, [] => []
  | lines + 1, character, '\r' :: '\n' :: rest =>
    '\r' :: '\n' :: untilCaret lines character rest
  | lines + 1, character, c :: rest =>
    c :: untilCaret (if isLineEnd c then lines else lines + 1) character rest

/-- The text before a position. -/
def untilPosition (text : String) (position : Position) : String :=
  String.ofList (untilCaret position.line position.character text.toList)

end CypherAssist.Text
