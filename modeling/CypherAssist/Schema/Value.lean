import CypherAssist.Decimal.Shortest
import CypherAssist.Schema.Timestamp
import CypherAssist.Text.Quoted

/-! Loosely shaped data, as it is read from a schema file or handed over by a client. In a file one
collection may stand in several places, also inside itself. The collections of such data have
numbers, by which they are known wherever they stand. -/
namespace CypherAssist.Schema
open Decimal Text

/-- A datum. The entries of a mapping keep their order. A collection may also be given by its
number. Of an object of any other kind there is what can be asked of it: the name of its kind, how
it is shown if it can be, whether it counts as true, and the items that it goes through if any. -/
inductive Value where
  | null
  | bool (value : Bool)
  | int (value : Int)
  | float (value : Double)
  | time (value : Timestamp)
  | text (value : WideText)
  | list (items : List Value)
  | mapping (entries : List (Value × Value))
  | numbered (number : Nat)
  | object (kind : String) (shown? : Option String) (counts : Bool) (items? : Option (List Value))
  deriving Repr, Inhabited

/-- A datum together with the collections that are given by their numbers. -/
structure Data where
  root : Value := .null
  parts : List (Nat × Value) := []
  deriving Repr, Inhabited

namespace Value

/-- Whether a datum is a collection. -/
def isCollection : Value → Bool
  | .list _ => true
  | .mapping _ => true
  | .numbered _ => true
  | _ => false

/-- The name of the kind of a datum, as messages use it. -/
def kindName : Value → String
  | .null => "NoneType"
  | .bool _ => "bool"
  | .int _ => "int"
  | .float _ => "float"
  | .time moment => if moment.time?.isSome then "datetime" else "date"
  | .text _ => "str"
  | .list _ => "list"
  | .mapping _ => "dict"
  | .numbered _ => "object"
  | .object kind _ _ _ => kind

/-- Null, false, zeros and everything empty count as false. -/
def isTruthy : Value → Bool
  | .null => false
  | .bool value => value
  | .int value => value != 0
  | .float value => !value.isZero
  | .time _ => true
  | .text value => !value.isEmpty
  | .list items => !items.isEmpty
  | .mapping entries => !entries.isEmpty
  | .numbered _ => true
  | .object _ _ counts _ => counts

/-- The number a datum stands for as a key: truth values count as one and zero. -/
def number? : Value → Option (Int ⊕ Double)
  | .bool value => some (.inl (if value then 1 else 0))
  | .int value => some (.inl value)
  | .float value =>
    match value.toInt? with
    | some whole => some (.inl whole)
    | none => some (.inr value)
  | _ => none

/-- Two keys are the same when they are the same text, moment or number, or objects of one kind that
are shown alike. What is no number is the same key everywhere. -/
def sameKey (first second : Value) : Bool :=
  match first, second with
  | .null, .null => true
  | .text a, .text b => a = b
  | .time a, .time b => a.isSame b
  | .object kind shown? _ _, .object other alike? _ _ => kind = other && shown? = alike?
  | a, b =>
    match a.number?, b.number? with
    | some (.inl i), some (.inl j) => i = j
    | some (.inr x), some (.inr y) => x = y
    | _, _ => false

/-- The value under a key. -/
def find? (entries : List (Value × Value)) (key : Value) : Option Value :=
  (entries.find? fun entry => entry.1.sameKey key).map (·.2)

/-- Sets the value under a key. A key that is present keeps its place and its spelling. -/
def insert (entries : List (Value × Value)) (key value : Value) : List (Value × Value) :=
  if entries.any fun entry => entry.1.sameKey key then
    entries.map fun entry => if entry.1.sameKey key then (entry.1, value) else entry
  else entries ++ [(key, value)]

/-- The value under a text key. -/
def field? (value : Value) (key : String) : Option Value :=
  match value with
  | .mapping entries => find? entries (.text key)
  | _ => none

/-- The number of decimal digits up to which numbers are written out. -/
def mostDigits : Nat := 4300

/-- A whole number in decimal digits, unless it is too long. -/
def intText? (number : Int) : Option String :=
  if number.natAbs < Nat.pow 10 mostDigits then some (toString number) else none

mutual

/-- A datum as it is shown inside a list or mapping, if all numbers in it can be written out. The
function shows the collections with numbers. -/
def shownWith (part : Nat → Option String) : Value → Option String
  | .null => some "None"
  | .bool true => some "True"
  | .bool false => some "False"
  | .int value => intText? value
  | .float value => some value.text
  | .time moment => some moment.shown
  | .text value => some (quoted value)
  | .list items => (shownAll part items).map fun shown => "[" ++ ", ".intercalate shown ++ "]"
  | .mapping entries =>
    (shownEntries part entries).map fun shown => "\x7b" ++ ", ".intercalate shown ++ "\x7d"
  | .numbered number => part number
  | .object _ shown? _ _ => shown?

/-- The items of a list as they are shown. -/
def shownAll (part : Nat → Option String) : List Value → Option (List String)
  | [] => some []
  | item :: rest => do return (← item.shownWith part) :: (← shownAll part rest)

/-- The entries of a mapping as they are shown. -/
def shownEntries (part : Nat → Option String) : List (Value × Value) → Option (List String)
  | [] => some []
  | (key, value) :: rest => do
    return ((← key.shownWith part) ++ ": " ++ (← value.shownWith part)) ::
      (← shownEntries part rest)

end

/-- A collection that stands inside itself. -/
def cutShort : Value → String
  | .list _ => "[...]"
  | .mapping _ => "\x7b...\x7d"
  | _ => "..."

end Value

namespace Data

instance : Coe Value Data := ⟨fun root => { root }⟩

/-- The collection with a number. -/
def part (data : Data) (number : Nat) : Value := (data.parts.lookup number).getD .null

/-- A datum with the collection in place of its number. -/
def resolve (data : Data) (value : Value) : Value :=
  match value with
  | .numbered number => data.part number
  | other => other

/-- The collection with a number as it is shown inside those with other numbers. The budget is the
number of collections that can be shown inside each other. -/
def shownPart (data : Data) : (budget : Nat) → (around : List Nat) → Nat → Option String
  | 0, _, number => some (data.part number).cutShort
  | budget + 1, around, number =>
    if around.contains number then some (data.part number).cutShort
    else (data.part number).shownWith (data.shownPart budget (number :: around))

/-- A datum as it is shown inside a list or mapping. -/
def shown? (data : Data) (value : Value) : Option String :=
  value.shownWith (data.shownPart (data.parts.length + 1) [])

/-- The text of a datum that stands by itself, if it can be written out: a text is its own text, and
a moment is written with the year first. -/
def text? (data : Data) (value : Value) : Option WideText :=
  match value with
  | .text value => some value
  | .time moment => some moment.text
  | other => (data.shown? other).map WideText.ofString

end Data

end CypherAssist.Schema
