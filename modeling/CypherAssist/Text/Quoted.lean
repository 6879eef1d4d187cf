import CypherAssist.Text.Printable
import CypherAssist.Text.Wide

/-! Quoted text, as a value inside a list or an error text is shown: between single quotes, or
between double quotes where the text holds single quotes only, with the backslash, the quote in use
and everything that cannot be printed escaped. -/
namespace CypherAssist.Text

/-- A number in lower-case hexadecimal digits, filled up with zeros. -/
def hex (width number : Nat) : List Char :=
  let digits := Nat.toDigits 16 number
  List.replicate (width - digits.length) '0' ++ digits

/-- The mark around a text. -/
def quoteMark (text : WideText) : Char :=
  if text.contains (.char '\'') && !text.contains (.char '"') then '"' else '\''

/-- One character inside a quoted text. -/
def escape (quote c : Char) : List Char :=
  if c = quote ∨ c = '\\' then ['\\', c]
  else if c = '\t' then ['\\', 't']
  else if c = '\n' then ['\\', 'n']
  else if c = '\r' then ['\\', 'r']
  else if isPrintable c then [c]
  else if c.toNat < 0x100 then ['\\', 'x'] ++ hex 2 c.toNat
  else if c.toNat < 0x10000 then ['\\', 'u'] ++ hex 4 c.toNat
  else ['\\', 'U'] ++ hex 8 c.toNat

/-- One point inside a quoted text. A surrogate cannot be printed. -/
def escapePoint (quote : Char) (point : Point) : List Char :=
  match point with
  | .char c => escape quote c
  | .surrogate _ => ['\\', 'u'] ++ hex 4 point.code

/-- A text in quotes. -/
def quoted (text : WideText) : String :=
  let mark := quoteMark text
  String.ofList (mark :: text.flatMap (escapePoint mark) ++ [mark])

end CypherAssist.Text
