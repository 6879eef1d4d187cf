import CypherAssist.Yaml.Fault

/-! The types of plain scalars: truth values, whole and broken numbers, moments and null are known
by their form, and everything else is text. A scalar that has the form of a type may still stand
for no datum of it. -/
namespace CypherAssist.Yaml
open Schema Decimal

/-- What a scalar reads as. A merge key takes over the entries of another mapping, and the default
key is no value of its own. -/
inductive Resolved where
  | value (value : Value)
  | merge
  | default
  | fault (fault : Fault)
  deriving Repr

namespace Resolved

/-- The datum of a scalar that stands by itself. -/
def datum : Resolved → Except Fault Value
  | .value known => .ok known
  | .merge => .error .invalid
  | .default => .error .invalid
  | .fault reason => .error reason

/-- The datum of a number, if it has one. -/
def ofNumber : Except DatumError Value → Resolved
  | .ok number => .value number
  | .error error => .fault (.datum error)

/-- A digit of the ASCII set. -/
def digit? (c : Char) : Option Nat := if c.isDigit then some (c.toNat - '0'.toNat) else none

/-- The number that digits of a base stand for. Underscores between them are passed over. -/
def number? (base : Nat) (digits : List Char) : Option Nat :=
  (digits.filter (· != '_')).foldlM (fun number c => do
    let value ← if c.isDigit then digit? c
      else if 'a' ≤ c && c ≤ 'f' then some (c.toNat - 'a'.toNat + 10)
      else if 'A' ≤ c && c ≤ 'F' then some (c.toNat - 'A'.toNat + 10)
      else none
    if value < base then some (number * base + value) else none) 0

/-- Takes a sign. -/
def sign : List Char → Bool × List Char
  | '-' :: rest => (true, rest)
  | '+' :: rest => (false, rest)
  | text => (false, text)

/-- Splits a text at a character. -/
def splitAt (mark : Char) : List Char → List (List Char)
  | [] => [[]]
  | c :: rest =>
    if c = mark then [] :: splitAt mark rest
    else
      match splitAt mark rest with
      | [] => [[c]]
      | part :: others => (c :: part) :: others

/-- A part of a number in base sixty, behind the first one: below sixty and of at most two
digits. -/
def sixtieth? : List Char → Option Nat
  | [c] => digit? c
  | [c, d] => do
    let high ← digit? c
    let low ← digit? d
    if high < 6 then some (high * 10 + low) else none
  | _ => none

/-- The number that digits of a power of two stand for; there have to be some. -/
def powerNumber? (base : Nat) (digits : List Char) : Option (Except DatumError Nat) :=
  (number? base digits).map fun number =>
    if digits.all (· == '_') then .error (.noDigits base) else .ok number

/-- The number that decimal digits stand for, if they are not too many. -/
def decimalNumber? (digits : List Char) : Option (Except DatumError Nat) :=
  let count := (digits.filter (· != '_')).length
  if Value.mostDigits < count then
    if digits.all fun c => c.isDigit || c == '_' then some (.error (.longNumber count)) else none
  else (number? 10 digits).map .ok

/-- The size of a whole number: binary, octal, hexadecimal, decimal, or decimal parts in base
sixty. -/
def natural? (text : List Char) : Option (Except DatumError Nat) :=
  match text with
  | '0' :: 'b' :: rest => if rest.isEmpty then none else powerNumber? 2 rest
  | '0' :: 'x' :: rest => if rest.isEmpty then none else powerNumber? 16 rest
  | '0' :: rest => (number? 8 rest).map .ok
  | c :: _ =>
    if !c.isDigit then none
    else
      match splitAt ':' text with
      | [] => none
      | first :: parts => do
        let whole ← decimalNumber? first
        let sixtieths ← parts.mapM sixtieth?
        return whole.map fun whole =>
          sixtieths.foldl (fun total sixtieth => total * 60 + sixtieth) whole
  | [] => none

/-- A whole number. -/
def int? (text : List Char) : Option (Except DatumError Int) :=
  let (negative, text) := sign text
  (natural? text).map fun size? => size?.map fun size =>
    if negative then -Int.ofNat size else Int.ofNat size

/-- A decimal exponent, whose sign is not left out. -/
def exponent? : List Char → Option Int
  | [] => some 0
  | c :: rest =>
    if c = 'e' || c = 'E' then
      match rest with
      | '+' :: digits => if digits.isEmpty then none else (digits.mapM digit?).bind fun _ =>
          (number? 10 digits).map Int.ofNat
      | '-' :: digits => if digits.isEmpty then none else (digits.mapM digit?).bind fun _ =>
          (number? 10 digits).map fun size => -Int.ofNat size
      | _ => none
    else none

/-- Whether a character is a digit or an underscore. -/
def isDigitOrMark (c : Char) : Bool := c.isDigit || c == '_'

/-- A decimal fraction with a point; a sign needs a digit before the point. -/
def fraction? (text : List Char) : Option Double := do
  let (negative, body) := sign text
  let whole := body.takeWhile isDigitOrMark
  match body.drop whole.length with
  | '.' :: rest =>
    let places := rest.takeWhile isDigitOrMark
    let exponent ← exponent? (rest.drop places.length)
    let startsWell := match whole with
      | [] => body.length == text.length && places.head?.any Char.isDigit
      | c :: _ => c.isDigit
    if startsWell then
      let digits ← number? 10 (whole ++ places)
      let count := (places.filter (· != '_')).length
      return Double.ofDecimal negative digits (exponent - count)
    else none
  | _ => none

/-- The sum of parts in base sixty, given from the last one on. Each power of sixty, each product
and each sum is rounded. -/
def sumOfSixtieths (total : Double) (power : Nat) : List Double → Except DatumError Double
  | [] => .ok total
  | part :: rest =>
    match Double.ofQuotient false power 1 with
    | .infinite _ => .error .wideNumber
    | unit => sumOfSixtieths (total.plus (part.times unit)) (power * 60) rest

/-- A fraction in base sixty. -/
def sexagesimal? (text : List Char) : Option (Except DatumError Double) := do
  let (negative, body) := sign text
  match splitAt ':' body with
  | first :: second :: more =>
    let whole ← if first.head?.any Char.isDigit then number? 10 first else none
    let parts := second :: more
    let last ← parts.getLast?
    let lastWhole := last.takeWhile (· != '.')
    let _ ← sixtieth? lastWhole
    let lastValue ← match last.drop lastWhole.length with
      | '.' :: places =>
        if places.all isDigitOrMark then fraction? last else none
      | _ => none
    let wholes := (whole :: (← parts.dropLast.mapM sixtieth?)).reverse
    return (sumOfSixtieths (.finite false 0 Double.leastExponent) 1
      (lastValue :: wholes.map fun part => Double.ofDecimal false part 0)).map
        (Double.withSign negative)
  | _ => none

/-- Numbers without end and what is no number. -/
def special? (text : List Char) : Option Double :=
  if text ∈ [".nan".toList, ".NaN".toList, ".NAN".toList] then some .nan
  else
    let (negative, body) := sign text
    if body ∈ [".inf".toList, ".Inf".toList, ".INF".toList] then some (.infinite negative)
    else none

/-- A number of at least so many and at most so many digits. -/
def digits? (least most : Nat) (text : List Char) : Option (Nat × List Char) :=
  let run := (text.takeWhile Char.isDigit).take most
  if run.length < least then none
  else (number? 10 run).map fun number => (number, text.drop run.length)

/-- Takes one expected character. -/
def expect? (mark : Char) : List Char → Option (List Char)
  | c :: rest => if c = mark then some rest else none
  | [] => none

/-- The offset of a time in minutes; none where the time has none. -/
def offset? (text : List Char) : Option (Option Int) :=
  match text with
  | [] => some none
  | _ =>
    match text.dropWhile fun c => c == ' ' || c == '\t' with
    | ['Z'] => some (some 0)
    | c :: rest =>
      if c = '+' ∨ c = '-' then do
        let (hours, rest) ← digits? 1 2 rest
        let minutes ← match rest with
          | [] => some 0
          | _ => do
            let (minutes, rest) ← digits? 2 2 (← expect? ':' rest)
            if rest.isEmpty then some minutes else none
        let size : Int := Int.ofNat (hours * 60 + minutes)
        return some (if c = '-' then -size else size)
      else none
    | [] => none

/-- The time of a day behind a date. -/
def time? (text : List Char) : Option TimeOfDay := do
  let text ← match text with
    | 'T' :: rest => some rest
    | 't' :: rest => some rest
    | c :: _ =>
      if c == ' ' || c == '\t' then some (text.dropWhile fun c => c == ' ' || c == '\t') else none
    | [] => none
  let (hour, text) ← digits? 1 2 text
  let (minute, text) ← digits? 2 2 (← expect? ':' text)
  let (second, text) ← digits? 2 2 (← expect? ':' text)
  let (micro, text) ← match text with
    | '.' :: rest =>
      let places := rest.takeWhile Char.isDigit
      (number? 10 ((places ++ List.replicate 6 '0').take 6)).map fun micro =>
        (micro, rest.drop places.length)
    | _ => some (0, text)
  return ⟨hour, minute, second, micro, ← offset? text⟩

/-- A date, or a date and a time. -/
def moment? (text : List Char) : Option Timestamp := do
  let (year, rest) ← digits? 4 4 text
  let (month, rest) ← digits? 1 2 (← expect? '-' rest)
  let (day, rest) ← digits? 1 2 (← expect? '-' rest)
  match rest with
  | [] => if text.length = 10 then return ⟨year, month, day, none⟩ else none
  | _ => return ⟨year, month, day, some (← time? rest)⟩

/-- Spellings of true. -/
def trueWords : List String := ["yes", "Yes", "YES", "true", "True", "TRUE", "on", "On", "ON"]

/-- Spellings of false. -/
def falseWords : List String := ["no", "No", "NO", "false", "False", "FALSE", "off", "Off", "OFF"]

/-- Spellings of null. -/
def nullWords : List String := ["", "~", "null", "Null", "NULL"]

/-- A fraction of any form. -/
def float? (text : List Char) : Option (Except DatumError Double) :=
  ((fraction? text <|> special? text).map .ok) <|> sexagesimal? text

/-- What a moment reads as. -/
def ofMoment (moment : Timestamp) : Resolved :=
  match moment.problem? with
  | some problem => .fault (.datum (.noMoment problem))
  | none => .value (.time moment)

/-- What a plain scalar reads as by its form. -/
def ofText (text : String) : Resolved :=
  if nullWords.contains text then .value .null
  else if trueWords.contains text then .value (.bool true)
  else if falseWords.contains text then .value (.bool false)
  else if text = "<<" then .merge
  else if text = "=" then .default
  else
    let chars := text.toList
    match float? chars, int? chars, moment? chars with
    | some number, _, _ => ofNumber (number.map .float)
    | none, some number, _ => ofNumber (number.map .int)
    | none, none, some moment => ofMoment moment
    | none, none, none => .value (.text text)

end Resolved

end CypherAssist.Yaml
