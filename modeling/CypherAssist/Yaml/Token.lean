import CypherAssist.Yaml.Scalar

/-! YAML tokens. Block collections are shown by indentation only, so their bounds are tokens of
their own. A key is known for one when the colon behind it is read; its mark is then put in front
of the token with which it started. Where a text breaks off, the tokens are given up to there. -/
namespace CypherAssist.Yaml
open Text

/-- A unit of YAML: directives, marks between documents, bounds of collections, marks of entries,
properties of nodes, and scalars without quotes or in quotes and blocks. Of a directive only the
main number of the version that it asks for matters. What comes behind a fault is not known. -/
inductive Token where
  | directive (version? : Option Nat)
  | documentStart
  | documentEnd
  | blockSequenceStart
  | blockMappingStart
  | blockEnd
  | flowSequenceStart
  | flowSequenceEnd
  | flowMappingStart
  | flowMappingEnd
  | blockEntry
  | flowEntry
  | key
  | value
  | reference (anchor : String)
  | anchor (name : String)
  | tag (name : String)
  | plain (text : String)
  | quoted (text : WideText)
  | cutOff (reason : Fault)
  deriving DecidableEq, Repr

namespace Token

/-- A place where a key may have started: the number of tokens before it and its place in the text.
A key at the indentation of its collection is required to be one. -/
structure Start where
  count : Nat
  index : Nat
  line : Nat
  column : Nat
  isRequired : Bool

/-- What is known while tokens are read. Inside brackets indentation does not count; each level of
brackets has at most one place where a key may have started. -/
structure State where
  reader : Reader
  tokens : Array Token := #[]
  indent : Int := -1
  outer : List Int := []
  depth : Nat := 0
  allowsKey : Bool := true
  starts : List (Nat × Start) := []

namespace State

/-- Adds a token. -/
def push (state : State) (token : Token) : State :=
  { state with tokens := state.tokens.push token }

/-- Whether brackets are open. -/
def inFlow (state : State) : Bool := state.depth != 0

/-- The column of the next character. -/
def column (state : State) : Int := state.reader.column

/-- The place where a key may have started on the current level. -/
def start? (state : State) : Option Start :=
  (state.starts.find? fun entry => entry.1 == state.depth).map (·.2)

/-- Forgets the place on the current level, which must not be a required key. -/
def forget? (state : State) : Option State :=
  if state.start?.any (·.isRequired) then none
  else some { state with starts := state.starts.filter fun entry => entry.1 != state.depth }

/-- A key is on one line and at most 1024 characters long, so a place may be too far back. -/
def isStale (state : State) (start : Start) : Bool :=
  start.line != state.reader.line || 1024 < state.reader.index - start.index

/-- Forgets the places that are too far back. -/
def forgetStale? (state : State) : Option State :=
  if state.starts.any fun entry => state.isStale entry.2 && entry.2.isRequired then none
  else some { state with starts := state.starts.filter fun entry => !state.isStale entry.2 }

/-- The tokens in front of which no mark of a key can be put any more. -/
def settled (state : State) : List Token :=
  let places := (state.starts.filter fun entry => !state.isStale entry.2).map (·.2.count)
  state.tokens.toList.take (places.foldl min state.tokens.size)

/-- Remembers the current place where a key may start. -/
def remember? (state : State) : Option State :=
  if state.allowsKey then do
    let isRequired := !state.inFlow && state.indent == state.column
    let start : Start := ⟨state.tokens.size, state.reader.index, state.reader.line,
      state.reader.column, isRequired⟩
    let state ← state.forget?
    return { state with starts := (state.depth, start) :: state.starts }
  else some state

/-- Closes the block collections that are indented more than a column. -/
def unwind (column : Int) : Nat → State → State
  | 0, state => state
  | fuel + 1, state =>
    if !state.inFlow && column < state.indent then
      match state.outer with
      | [] => state
      | indent :: outer =>
        unwind column fuel ({ state with indent, outer }.push .blockEnd)
    else state

/-- Closes all block collections down to a column. -/
def closeTo (state : State) (column : Int) : State :=
  state.unwind column state.outer.length

/-- Opens a block collection at a column, unless one is open there. -/
def openAt (state : State) (column : Int) (token : Token) (place : Nat) : State :=
  if state.indent < column then
    { state with
      indent := column
      outer := state.indent :: state.outer
      tokens := state.tokens.insertIdxIfInBounds place token }
  else state

/-- Passes characters and adds the token they are. -/
def take (state : State) (count : Nat) (token : Token) : State :=
  { state with reader := state.reader.skip count }.push token

end State

/-- Whether the character after the next one separates tokens. -/
def isApart (reader : Reader) : Bool := endsWord (reader.peek 1)

/-- A mark between documents. -/
def documentMark? (state : State) (token : Token) : Option State := do
  let state ← (state.closeTo (-1)).forget?
  return { state with allowsKey := false }.take 3 token

/-- A decimal number. -/
def number? (reader : Reader) : Except Fault (Nat × Reader) :=
  let (digits, reader) := reader.span Char.isDigit
  if digits.isEmpty then .error .invalid
  else if Schema.Value.mostDigits < digits.length then
    .error (.datum (.longNumber digits.length))
  else .ok (digits.foldl (fun number c => number * 10 + (c.toNat - '0'.toNat)) 0, reader)

/-- The main number of a version of two numbers. -/
def version? (reader : Reader) : Except Fault (Nat × Reader) := do
  let (major, reader) ← number? (reader.span (· == ' ')).2
  if reader.peek != some '.' then throw .invalid
  let (_, reader) ← number? reader.advance
  return (major, reader)

/-- A directive up to the end of its line. -/
def directive? (state : State) : Except Fault State := do
  let state ← Fault.require (state.closeTo (-1)).forget?
  let (name, reader) := state.reader.advance.span fun c => c.isAlphanum || c == '-' || c == '_'
  if name.isEmpty || !(reader.peek == some ' ' || endsLine reader.peek) then throw .invalid
  let (major?, reader) ←
    if String.ofList name = "YAML" then do
      let (major, reader) ← version? reader
      if reader.peek == some '#' then throw .invalid
      pure (some major, reader)
    else pure (none, (reader.span fun c => !isBreak c).2)
  let reader ← Fault.require reader.lineEnd?
  return { state with reader, allowsKey := false }.push (.directive major?)

/-- An opening bracket. -/
def opening? (state : State) (token : Token) : Option State := do
  let state ← state.remember?
  return { state with depth := state.depth + 1, allowsKey := true }.take 1 token

/-- A closing bracket. -/
def closing? (state : State) (token : Token) : Option State := do
  let state ← state.forget?
  return { state with depth := state.depth - 1, allowsKey := false }.take 1 token

/-- A comma between brackets. -/
def flowEntry? (state : State) : Option State := do
  let state ← { state with allowsKey := true }.forget?
  return state.take 1 .flowEntry

/-- A dash in front of an item. -/
def blockEntry? (state : State) : Option State := do
  if !state.inFlow && !state.allowsKey then none
  let state := if state.inFlow then state
    else state.openAt state.column .blockSequenceStart state.tokens.size
  let state ← { state with allowsKey := true }.forget?
  return state.take 1 .blockEntry

/-- A question mark in front of a key. -/
def explicitKey? (state : State) : Option State := do
  if !state.inFlow && !state.allowsKey then none
  let state := if state.inFlow then state
    else state.openAt state.column .blockMappingStart state.tokens.size
  let state ← { state with allowsKey := !state.inFlow }.forget?
  return state.take 1 .key

/-- A colon in front of a value. The key before it gets its mark now. -/
def valueMark? (state : State) : Option State :=
  match state.start? with
  | some start =>
    let state := { state with
      starts := state.starts.filter fun entry => entry.1 != state.depth
      tokens := state.tokens.insertIdxIfInBounds start.count .key }
    let state := if state.inFlow then state
      else state.openAt start.column .blockMappingStart start.count
    some ({ state with allowsKey := false }.take 1 .value)
  | none => do
    if !state.inFlow && !state.allowsKey then none
    let state := if state.inFlow then state
      else state.openAt state.column .blockMappingStart state.tokens.size
    let state ← { state with allowsKey := !state.inFlow }.forget?
    return state.take 1 .value

/-- A token that may start a key. -/
def keyable? (state : State) (read : Reader → Option (Token × Reader)) : Option State := do
  let state ← state.remember?
  let (token, reader) ← read state.reader
  return { state with reader, allowsKey := false }.push token

/-- The name behind the sign of an anchor or reference. -/
def anchorName? (reader : Reader) : Option (String × Reader) :=
  let (name, reader) := reader.advance.span fun c => c.isAlphanum || c == '-' || c == '_'
  if name.isEmpty then none
  else if endsWord reader.peek || reader.peek.any "?:,]\x7d%@`".toList.contains then
    some (String.ofList name, reader)
  else none

/-- An anchor or a reference to one. -/
def named? (state : State) (token : String → Token) : Option State :=
  keyable? state fun reader =>
    (anchorName? reader).map fun (name, reader) => (token name, reader)

/-- The characters of a tag. -/
def isTagChar (c : Char) : Bool := c.isAlphanum || "-;/?:@&=+$,_.!~*'()[]%".toList.contains c

/-- The common beginning of the tags of the standard types. -/
def standardTag : String := "tag:yaml.org,2002:"

/-- A tag: in full between angle brackets, a standard type behind two exclamation marks, or a local
name. -/
def tag? (reader : Reader) : Option (String × Reader) := do
  let (name, reader) ← match reader.rest with
    | '!' :: '<' :: _ =>
      let (name, reader) := (reader.skip 2).span isTagChar
      if name.isEmpty || reader.peek != some '>' then none
      else some (String.ofList name, reader.advance)
    | '!' :: '!' :: _ =>
      let (name, reader) := (reader.skip 2).span isTagChar
      if name.isEmpty then none else some (standardTag ++ String.ofList name, reader)
    | _ =>
      let (name, reader) := reader.advance.span isTagChar
      if name.contains '!' then none else some ("!" ++ String.ofList name, reader)
  if endsLine reader.peek || reader.peek == some ' ' then return (name, reader) else none

/-- A block behind a bar or an angle bracket. -/
def block? (state : State) (isFolded : Bool) : Option State := do
  let state ← { state with allowsKey := true }.forget?
  let (text, reader) ← Block.read isFolded state.indent state.reader.advance
  return { state with reader }.push (.quoted (WideText.ofChars text))

/-- A text between quotes. -/
def quoted? (state : State) (double : Bool) : Except Fault State := do
  let state ← Fault.require state.remember?
  let (text, reader) ← Quoted.read double (state.reader.rest.length + 1) state.reader.advance []
  return { state with reader, allowsKey := false }.push (.quoted text)

/-- A scalar without quotes. A key may start after it if a line was broken behind it. -/
def plain? (state : State) : Option State := do
  let state ← state.remember?
  let (text, reader, broken) :=
    Plain.read state.inFlow state.indent (state.reader.rest.length + 1) state.reader [] [] false
  return { state with reader, allowsKey := broken }.push (.plain (String.ofList text))

/-- Whether a plain scalar can start with a character, given the next one. -/
def startsPlain (inFlow : Bool) (c : Char) (next : Option Char) : Bool :=
  !(isGap c || isBreak c || "-?:,[]\x7b\x7d#&*!|>'\"%@`".toList.contains c) ||
    (!endsWord next && (c == '-' || (!inFlow && (c == '?' || c == ':'))))

/-- Reads a token that no other fault than a wrong character can break off. -/
def simple? (state : State) (c : Char) : Option State :=
  let reader := state.reader
  let atMargin := reader.column == 0
  if c == '-' && atMargin && reader.atMark then documentMark? state .documentStart
  else if c == '.' && atMargin && reader.atMark then documentMark? state .documentEnd
  else if c == '[' then opening? state .flowSequenceStart
  else if c == '\x7b' then opening? state .flowMappingStart
  else if c == ']' then closing? state .flowSequenceEnd
  else if c == '\x7d' then closing? state .flowMappingEnd
  else if c == ',' then flowEntry? state
  else if c == '-' && isApart reader then blockEntry? state
  else if c == '?' && (state.inFlow || isApart reader) then explicitKey? state
  else if c == ':' && (state.inFlow || isApart reader) then valueMark? state
  else if c == '*' then named? state .reference
  else if c == '&' then named? state .anchor
  else if c == '!' then
    keyable? state fun reader => (tag? reader).map fun (name, reader) => (.tag name, reader)
  else if c == '|' && !state.inFlow then block? state false
  else if c == '>' && !state.inFlow then block? state true
  else if startsPlain state.inFlow c (reader.peek 1) then plain? state
  else none

/-- Reads the token at a character. -/
def read? (state : State) (c : Char) : Except Fault State :=
  if c == '%' && state.reader.column == 0 then directive? state
  else if c == '\'' then quoted? state false
  else if c == '"' then quoted? state true
  else Fault.require (simple? state c)

/-- Passes the gap before a token, closes the collections that end there and reads the token; at
the end of the text there is none. -/
def next? (state : State) : Except Fault (State × Bool) := do
  let (reader, broken) := state.reader.gap (state.reader.rest.length + 1) false
  let state := { state with reader, allowsKey := state.allowsKey || (broken && !state.inFlow) }
  let state ← Fault.require state.forgetStale?
  let state := state.closeTo state.column
  match state.reader.rest with
  | [] => return (← Fault.require (state.closeTo (-1)).forget?, false)
  | c :: _ => return (← read? state c, true)

/-- The tokens from a state on. -/
def readAll : Nat → State → List Token
  | 0, state => state.settled ++ [.cutOff .invalid]
  | fuel + 1, state =>
    match next? state with
    | .error fault => state.settled ++ [.cutOff fault]
    | .ok (state, true) => readAll fuel state
    | .ok (state, false) => state.tokens.toList

/-- The tokens of a text. A byte order mark at the start is passed over. -/
def ofText (text : List Char) : List Token :=
  if text.all isAllowed then
    let text := if text.head? == some '\ufeff' then text.drop 1 else text
    readAll (text.length + 1) ⟨⟨text, 0, 0, 0⟩, #[], -1, [], 0, true, []⟩
  else [.cutOff .invalid]

end Token

end CypherAssist.Yaml
