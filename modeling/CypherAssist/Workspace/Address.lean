import CypherAssist.Text.Quoted

/-! Network addresses, as the authority of a URI may hold one in brackets: groups of hexadecimal
digits between colons, of which one run may be left out, with a dotted address in place of the last
two groups and a zone behind a percent sign; or an address of a version to come. -/
namespace CypherAssist.Workspace.Address

/-- The pieces of a text between separators. -/
def split (separator : Char) : List Char → List (List Char)
  | [] => [[]]
  | c :: rest =>
    if c = separator then [] :: split separator rest
    else match split separator rest with
      | [] => [[c]]
      | first :: more => (c :: first) :: more

/-- Whether a character is a hexadecimal digit. -/
def isHexDigit (c : Char) : Bool :=
  c.isDigit || ('a' ≤ c && c ≤ 'f') || ('A' ≤ c && c ≤ 'F')

/-- Whether a text is a number up to 255 without leading zeros. -/
def isOctet (text : List Char) : Bool :=
  !text.isEmpty && text.length ≤ 3 && text.all Char.isDigit &&
    (text = ['0'] || text.head? ≠ some '0') &&
    text.foldl (fun number c => number * 10 + (c.toNat - '0'.toNat)) 0 ≤ 255

/-- Whether a text is four numbers between dots. -/
def isDotted (text : List Char) : Bool :=
  let octets := split '.' text
  octets.length = 4 && octets.all isOctet

/-- Whether a text is a group of an address. -/
def isGroup (text : List Char) : Bool :=
  !text.isEmpty && text.length ≤ 4 && text.all isHexDigit

/-- The groups of an address in which a dotted end counts as two, if that end is an address. -/
def groups? (text : List Char) : Option (List (List Char)) :=
  let groups := split ':' text
  match groups.getLast? with
  | some last =>
    if groups.length < 3 then none
    else if last.contains '.' then
      if isDotted last then some (groups.dropLast ++ [['0'], ['0']]) else none
    else some groups
  | none => none

/-- Whether groups make up an address. An inner group that is empty stands for all that are left
out; then the first or last group is empty only next to it. -/
def areGroups (groups : List (List Char)) : Bool :=
  let inner := (groups.drop 1).dropLast
  match inner.count [] with
  | 0 => groups.length = 8 && groups.all isGroup
  | 1 =>
    let before := groups.take (inner.idxOf [] + 1)
    let behind := groups.drop (inner.idxOf [] + 2)
    let before := if before = [[]] then [] else before
    let behind := if behind = [[]] then [] else behind
    before.length + behind.length ≤ 7 && before.all isGroup && behind.all isGroup
  | _ => false

/-- Whether a text is an address with groups. -/
def isGrouped (text : List Char) : Bool :=
  let address := text.takeWhile (· ≠ '%')
  let zone := text.dropWhile (· ≠ '%')
  !text.contains '/' && zone ≠ ['%'] && !(zone.drop 1).contains '%' &&
    match groups? address with
    | some groups => areGroups groups
    | none => false

/-- Whether a text is an address of a version to come: the version in hexadecimal digits, a dot and
something behind it. -/
def isFuture (text : List Char) : Bool :=
  match text with
  | 'v' :: rest =>
    let version := rest.takeWhile isHexDigit
    let behind := rest.dropWhile isHexDigit
    !version.isEmpty && behind.head? = some '.' && behind.length ≥ 2
  | _ => false

end CypherAssist.Workspace.Address
