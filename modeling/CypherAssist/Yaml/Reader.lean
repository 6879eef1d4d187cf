/-! Places in a YAML text. Line and column decide where collections begin and end. -/
namespace CypherAssist.Yaml

/-- Whether a character breaks a line. -/
def isBreak (c : Char) : Bool :=
  c == '\n' || c == '\r' || c == '\u0085' || c == '\u2028' || c == '\u2029'

/-- Whether a character separates tokens inside a line. -/
def isGap (c : Char) : Bool := c == ' ' || c == '\t'

/-- Whether nothing follows, or a gap or break. -/
def endsWord : Option Char → Bool
  | none => true
  | some c => isGap c || isBreak c

/-- Whether nothing follows on the line. -/
def endsLine : Option Char → Bool
  | none => true
  | some c => isBreak c

/-- Whether YAML allows a character. -/
def isAllowed (c : Char) : Bool :=
  let code := c.toNat
  code == 0x9 || code == 0xa || code == 0xd || (0x20 ≤ code && code ≤ 0x7e) || code == 0x85 ||
    (0xa0 ≤ code && code ≤ 0xd7ff) || (0xe000 ≤ code && code ≤ 0xfffd) || 0x10000 ≤ code

/-- The text still to be read and the place of its first character. -/
structure Reader where
  rest : List Char
  index : Nat := 0
  line : Nat := 0
  column : Nat := 0

namespace Reader

/-- The character a number of places ahead. -/
def peek (reader : Reader) (ahead : Nat := 0) : Option Char := reader.rest[ahead]?

/-- Passes one character. A byte order mark takes no column. -/
def advance (reader : Reader) : Reader :=
  match reader.rest with
  | [] => reader
  | c :: rest =>
    if isBreak c && !(c == '\r' && rest.head? == some '\n') then
      ⟨rest, reader.index + 1, reader.line + 1, 0⟩
    else if c == '\ufeff' then ⟨rest, reader.index + 1, reader.line, reader.column⟩
    else ⟨rest, reader.index + 1, reader.line, reader.column + 1⟩

/-- Passes a number of characters. -/
def skip : Nat → Reader → Reader
  | 0, reader => reader
  | count + 1, reader => skip count reader.advance

/-- Takes the longest run of characters of one class. -/
def span (reader : Reader) (accepts : Char → Bool) : List Char × Reader :=
  let taken := reader.rest.takeWhile accepts
  (taken, skip taken.length reader)

/-- Takes a line break, if there is one. All but the Unicode separators read as a newline. -/
def lineBreak (reader : Reader) : List Char × Reader :=
  match reader.rest with
  | '\r' :: '\n' :: _ => (['\n'], skip 2 reader)
  | c :: _ =>
    if c == '\u2028' || c == '\u2029' then ([c], reader.advance)
    else if isBreak c then (['\n'], reader.advance)
    else ([], reader)
  | [] => ([], reader)

/-- Passes the rest of a line on which only a comment may stand, and the break behind it. -/
def lineEnd? (reader : Reader) : Option Reader :=
  let (_, reader) := reader.span (· == ' ')
  let reader :=
    if reader.peek == some '#' then (reader.span fun c => !isBreak c).2 else reader
  if endsLine reader.peek then some reader.lineBreak.2 else none

/-- Whether a mark between documents stands here: three dashes or points and the end of a word. -/
def atMark (reader : Reader) : Bool :=
  match reader.rest with
  | '-' :: '-' :: '-' :: rest => endsWord rest.head?
  | '.' :: '.' :: '.' :: rest => endsWord rest.head?
  | _ => false

/-- Passes spaces, comments and line breaks, and says whether a line was broken. -/
def gap : Nat → Reader → Bool → Reader × Bool
  | 0, reader, broken => (reader, broken)
  | fuel + 1, reader, broken =>
    let (_, reader) := reader.span (· == ' ')
    let reader :=
      if reader.peek == some '#' then (reader.span fun c => !isBreak c).2 else reader
    match reader.lineBreak with
    | ([], _) => (reader, broken)
    | (_, reader) => gap fuel reader true

end Reader

end CypherAssist.Yaml
