import CypherAssist.Yaml.Fault
import CypherAssist.Yaml.Reader

/-! The text of scalars: plain words, quoted texts and blocks. Breaks inside a scalar are folded: a
single newline reads as a space, and further ones are kept. -/
namespace CypherAssist.Yaml
open Text

/-- A break and the empty lines after it. -/
def folded (first : List Char) (breaks : List Char) : List Char :=
  (if first != ['\n'] then first else if breaks.isEmpty then [' '] else []) ++ breaks

namespace Plain

/-- The length of the piece of a plain scalar up to a gap. Inside brackets more marks end it. -/
def pieceLength (inFlow : Bool) : List Char → Nat
  | [] => 0
  | c :: rest =>
    let next := rest.head?
    if isGap c || isBreak c then 0
    else if c == ':' && (endsWord next || (inFlow && next.any ",[]\x7b\x7d".toList.contains)) then 0
    else if inFlow && ",?[]\x7b\x7d".toList.contains c then 0
    else pieceLength inFlow rest + 1

/-- The empty lines ahead; none where a mark between documents follows. -/
def breaks : Nat → Reader → List Char → Option (List Char) × Reader
  | 0, reader, acc => (some acc, reader)
  | fuel + 1, reader, acc =>
    if reader.peek == some ' ' then breaks fuel reader.advance acc
    else
      match reader.lineBreak with
      | ([], _) => (some acc, reader)
      | (newline, reader) =>
        if reader.atMark then (none, reader) else breaks fuel reader (acc ++ newline)

/-- What stands between two pieces, and whether a line was broken there. Nothing does at the end of
a document. -/
def gap (reader : Reader) : List Char × Reader × Bool :=
  let (blanks, reader) := reader.span (· == ' ')
  match reader.lineBreak with
  | ([], _) => (blanks, reader, false)
  | (first, reader) =>
    if reader.atMark then ([], reader, true)
    else
      match breaks reader.rest.length reader [] with
      | (none, reader) => ([], reader, true)
      | (some more, reader) => (folded first more, reader, true)

/-- Reads the pieces of a plain scalar, and says whether the last gap broke a line. Outside
brackets a piece is indented more than the collection around it. -/
def read (inFlow : Bool) (indent : Int) :
    Nat → Reader → List Char → List Char → Bool → List Char × Reader × Bool
  | 0, reader, text, _, broken => (text, reader, broken)
  | fuel + 1, reader, text, between, broken =>
    if reader.peek == some '#' then (text, reader, broken)
    else
      match pieceLength inFlow reader.rest with
      | 0 => (text, reader, broken)
      | length =>
        let text := text ++ between ++ reader.rest.take length
        let (between, reader, broken) := gap (reader.skip length)
        if between.isEmpty || reader.peek == some '#' ||
            (!inFlow && (reader.column : Int) < indent + 1) then (text, reader, broken)
        else read inFlow indent fuel reader text between broken

end Plain

namespace Quoted

/-- The empty lines after a break. A mark between documents may not stand inside quotes. -/
def breaks : Nat → Reader → List Char → Option (List Char × Reader)
  | 0, _, _ => none
  | fuel + 1, reader, acc =>
    if reader.atMark then none
    else
      let (_, reader) := reader.span isGap
      match reader.lineBreak with
      | ([], _) => some (acc, reader)
      | (newline, reader) => breaks fuel reader (acc ++ newline)

/-- The character that an escape of one letter stands for. -/
def escaped? : Char → Option Char
  | '0' => some '\x00'
  | 'a' => some '\x07'
  | 'b' => some '\x08'
  | 't' => some '\t'
  | '\t' => some '\t'
  | 'n' => some '\n'
  | 'v' => some '\x0b'
  | 'f' => some '\x0c'
  | 'r' => some '\r'
  | 'e' => some '\x1b'
  | ' ' => some ' '
  | '"' => some '"'
  | '\\' => some '\\'
  | '/' => some '/'
  | 'N' => some '\u0085'
  | '_' => some '\u00a0'
  | 'L' => some '\u2028'
  | 'P' => some '\u2029'
  | _ => none

/-- The number of hexadecimal digits that an escape takes. -/
def codeLength? : Char → Option Nat
  | 'x' => some 2
  | 'u' => some 4
  | 'U' => some 8
  | _ => none

/-- The value of a hexadecimal digit. -/
def hexDigit? (c : Char) : Option Nat :=
  if c.isDigit then some (c.toNat - '0'.toNat)
  else if 'a' ≤ c && c ≤ 'f' then some (c.toNat - 'a'.toNat + 10)
  else if 'A' ≤ c && c ≤ 'F' then some (c.toNat - 'A'.toNat + 10)
  else none

/-- The number that hexadecimal digits stand for. -/
def hexNumber? (digits : List Char) : Option Nat :=
  (digits.mapM hexDigit?).map fun values => values.foldl (fun number digit => number * 16 + digit) 0

/-- The number that an escape of the given length stands for. -/
def code? (length : Nat) (digits : List Char) : Option Nat :=
  if digits.length < length then none else hexNumber? (digits.take length)

/-- The point of an escape, and the escape's length behind the backslash; nothing where the letter
begins none. -/
def escape? (text : List Char) : Except Fault (Option (Point × Nat)) :=
  match text with
  | [] => .ok none
  | mark :: rest =>
    match escaped? mark, codeLength? mark with
    | some c, _ => .ok (some (.char c, 1))
    | none, none => .ok none
    | none, some length => do
      let code ← Fault.require (code? length rest)
      match Point.ofCode? code with
      | some point => return some (point, length + 1)
      | none => throw (.datum (.noPoint code))

/-- Reads up to the closing quote and passes it. The points read so far are given from the last
one on. -/
def read (double : Bool) : Nat → Reader → List Point → Except Fault (WideText × Reader)
  | 0, _, _ => .error .invalid
  | fuel + 1, reader, past =>
    match reader.rest with
    | [] => .error .invalid
    | c :: rest =>
      if !double && c == '\'' && rest.head? == some '\'' then
        read double fuel (reader.skip 2) (.char '\'' :: past)
      else if c == (if double then '"' else '\'') then .ok (past.reverse, reader.advance)
      else if double && c == '\\' then do
        match ← escape? rest with
        | some (point, length) => read double fuel (reader.skip (length + 1)) (point :: past)
        | none =>
          match reader.advance.lineBreak with
          | ([], _) => throw .invalid
          | (_, reader) =>
            let (more, reader) ← Fault.require (breaks (reader.rest.length + 1) reader [])
            read double fuel reader ((WideText.ofChars more).reverse ++ past)
      else if isGap c || isBreak c then
        let (blanks, reader) := reader.span isGap
        match reader.lineBreak with
        | ([], _) => read double fuel reader ((WideText.ofChars blanks).reverse ++ past)
        | (first, reader) => do
          let (more, reader) ← Fault.require (breaks (reader.rest.length + 1) reader [])
          read double fuel reader ((WideText.ofChars (folded first more)).reverse ++ past)
      else read double fuel reader.advance (.char c :: past)

end Quoted

namespace Block

/-- What becomes of the breaks at the end of a block: all but the first are dropped, all are
dropped, or all are kept. -/
inductive Chomping where
  | clip | strip | keep
  deriving DecidableEq

/-- The marks behind the sign of a block: its chomping and its indentation. -/
def header? (reader : Reader) : Option (Chomping × Option Nat × Reader) :=
  let chomping? (reader : Reader) : Option (Chomping × Reader) :=
    match reader.peek with
    | some '+' => some (.keep, reader.advance)
    | some '-' => some (.strip, reader.advance)
    | _ => none
  let indent? (reader : Reader) : Option (Option Nat × Reader) :=
    match reader.peek with
    | some c =>
      if c == '0' then none
      else if c.isDigit then some (some (c.toNat - '0'.toNat), reader.advance)
      else some (none, reader)
    | none => some (none, reader)
  match chomping? reader with
  | some (chomping, reader) =>
    (indent? reader).map fun (indent, reader) => (chomping, indent, reader)
  | none => do
    let (indent, reader) ← indent? reader
    match indent, chomping? reader with
    | some _, some (chomping, reader) => return (chomping, indent, reader)
    | _, _ => return (.clip, indent, reader)

/-- Passes the rest of the header line, which may hold a comment behind a space. -/
def headerEnd? (reader : Reader) : Option Reader :=
  if reader.peek == some '#' then none else reader.lineEnd?

/-- Passes spaces up to the indentation of the block. -/
def pad (indent : Nat) : Nat → Reader → Reader
  | 0, reader => reader
  | fuel + 1, reader =>
    if reader.column < indent && reader.peek == some ' ' then pad indent fuel reader.advance
    else reader

/-- The empty lines ahead, up to the indentation of the next line. -/
def breaks (indent : Nat) : Nat → Reader → List Char → List Char × Reader
  | 0, reader, acc => (acc, reader)
  | fuel + 1, reader, acc =>
    let reader := pad indent indent reader
    match reader.lineBreak with
    | ([], _) => (acc, reader)
    | (newline, reader) => breaks indent fuel reader (acc ++ newline)

/-- The empty lines at the start of a block, and the greatest column among the spaces there. -/
def leading : Nat → Reader → List Char → Nat → List Char × Nat × Reader
  | 0, reader, acc, deepest => (acc, deepest, reader)
  | fuel + 1, reader, acc, deepest =>
    if reader.peek == some ' ' then
      leading fuel reader.advance acc (max deepest reader.advance.column)
    else
      match reader.lineBreak with
      | ([], _) => (acc, deepest, reader)
      | (newline, reader) => leading fuel reader (acc ++ newline) deepest

/-- Reads the lines of a block with the given indentation. Gives the text without the breaks at
its end, the last break and the empty lines after it. -/
def lines (isFolded : Bool) (indent : Nat) :
    Nat → Reader → List Char → List Char → List Char → List Char × List Char × List Char × Reader
  | 0, reader, text, last, more => (text, last, more, reader)
  | fuel + 1, reader, text, last, more =>
    if reader.column != indent || reader.peek.isNone then (text, last, more, reader)
    else
      let startsDense := !(reader.peek.any isGap)
      let (line, reader) := reader.span fun c => !isBreak c
      let text := text ++ more ++ line
      let (last, reader) := reader.lineBreak
      let (more, reader) := breaks indent (reader.rest.length + 1) reader []
      if reader.column == indent && reader.peek.isSome then
        let joint :=
          if isFolded && last == ['\n'] && startsDense && !(reader.peek.any isGap) then
            if more.isEmpty then [' '] else []
          else last
        lines isFolded indent fuel reader (text ++ joint) [] more
      else (text, last, more, reader)

/-- Reads a block behind its sign. -/
def read (isFolded : Bool) (parent : Int) (reader : Reader) : Option (List Char × Reader) := do
  let (chomping, increment?, reader) ← header? reader
  let reader ← headerEnd? reader
  let least := (max (parent + 1) 1).toNat
  let fuel := reader.rest.length + 1
  let (indent, more, reader) := match increment? with
    | none =>
      let (more, deepest, reader) := leading fuel reader [] 0
      (max least deepest, more, reader)
    | some increment =>
      let indent := least + increment - 1
      let (more, reader) := breaks indent fuel reader []
      (indent, more, reader)
  let (text, last, more, reader) := lines isFolded indent fuel reader [] [] more
  return (match chomping with
    | .strip => text
    | .clip => text ++ last
    | .keep => text ++ last ++ more, reader)

end Block

end CypherAssist.Yaml
