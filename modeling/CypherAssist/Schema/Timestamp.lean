/-! Days and moments of the calendar, as schema files may hold them. -/
namespace CypherAssist.Schema

/-- The time of a day: hour, minute, second and microsecond, and the offset from universal time in
minutes where one is given. -/
structure TimeOfDay where
  hour : Nat
  minute : Nat
  second : Nat
  micro : Nat
  offset? : Option Int
  deriving DecidableEq, Repr

/-- A day, or a moment of it. -/
structure Timestamp where
  year : Nat
  month : Nat
  day : Nat
  time? : Option TimeOfDay
  deriving DecidableEq, Repr

namespace Timestamp

/-- A number with leading zeros. -/
def padded (width number : Nat) : String :=
  let digits := toString number
  String.ofList (List.replicate (width - digits.length) '0') ++ digits

/-- The number of days in a month. -/
def daysIn (year month : Nat) : Nat :=
  if month = 2 then
    if year % 4 = 0 ∧ (year % 100 ≠ 0 ∨ year % 400 = 0) then 29 else 28
  else if month ∈ [4, 6, 9, 11] then 30
  else 31

/-- The number of days before a month of the calendar. -/
def daysBefore (year month : Nat) : Nat :=
  let past := year - 1
  past * 365 + past / 4 - past / 100 + past / 400 +
    (List.range (month - 1)).foldl (fun days index => days + daysIn year (index + 1)) 0

/-- The microseconds of universal time up to a moment, if its offset is known. -/
def instant? (moment : Timestamp) : Option Int := do
  let time ← moment.time?
  let offset ← time.offset?
  let hours : Int := Int.ofNat ((daysBefore moment.year moment.month + moment.day) * 24 + time.hour)
  return ((hours * 60 + time.minute - offset) * 60 + time.second) * 1000000 + time.micro

/-- Whether two moments are the same: they fall on one instant, or are written alike where no
offset is known. -/
def isSame (first second : Timestamp) : Bool :=
  match first.instant?, second.instant? with
  | some i, some j => i = j
  | _, _ => first = second

/-- An offset with its sign, in hours and minutes. -/
def offsetText (offset : Int) : String :=
  (if offset < 0 then "-" else "+") ++ padded 2 (offset.natAbs / 60) ++ ":" ++
    padded 2 (offset.natAbs % 60)

/-- A fraction of a second is written where there is one, in six places. -/
def timeText (time : TimeOfDay) : String :=
  padded 2 time.hour ++ ":" ++ padded 2 time.minute ++ ":" ++ padded 2 time.second ++
    (if time.micro = 0 then "" else "." ++ padded 6 time.micro) ++
    match time.offset? with
    | none => ""
    | some offset => offsetText offset

/-- A span of minutes as it is shown: whole days, and the seconds to be added to them, where either
is not zero. -/
def shownSpan (minutes : Int) : String :=
  let days := minutes / 1440
  let seconds := minutes % 1440 * 60
  "datetime.timedelta(" ++ ", ".intercalate
    ((if days = 0 then [] else ["days=" ++ toString days]) ++
      if seconds = 0 then [] else ["seconds=" ++ toString seconds]) ++ ")"

/-- An offset as it is shown. -/
def shownOffset (offset : Int) : String :=
  if offset = 0 then "datetime.timezone.utc"
  else "datetime.timezone(" ++ shownSpan offset ++ ")"

/-- The numbers of a time as they are shown: zeros at the end, behind the minute, are left out. -/
def shownTime (time : TimeOfDay) : List Nat :=
  [time.hour, time.minute] ++
    if time.micro = 0 then if time.second = 0 then [] else [time.second]
    else [time.second, time.micro]

/-- A moment as it is shown inside a list or mapping. -/
def shown (moment : Timestamp) : String :=
  let day := [moment.year, moment.month, moment.day]
  match moment.time? with
  | none => "datetime.date(" ++ ", ".intercalate (day.map toString) ++ ")"
  | some time =>
    "datetime.datetime(" ++ ", ".intercalate ((day ++ shownTime time).map toString) ++
      match time.offset? with
      | none => ")"
      | some offset => ", tzinfo=" ++ shownOffset offset ++ ")"

/-- The moment with the year first. -/
def text (moment : Timestamp) : String :=
  padded 4 moment.year ++ "-" ++ padded 2 moment.month ++ "-" ++ padded 2 moment.day ++
    match moment.time? with
    | none => ""
    | some time => " " ++ timeText time

/-- Why the calendar does not have a moment. The offset is in minutes. -/
inductive Problem where
  | offset (minutes : Int)
  | year
  | month
  | day
  | hour
  | minute
  | second
  deriving DecidableEq, Repr

/-- The wording of a problem. -/
def Problem.message : Problem → String
  | .offset minutes =>
    "offset must be a timedelta strictly between -timedelta(hours=24) and timedelta(hours=24), " ++
      "not " ++ shownSpan minutes ++ "."
  | .year => "year 0 is out of range"
  | .month => "month must be in 1..12"
  | .day => "day is out of range for month"
  | .hour => "hour must be in 0..23"
  | .minute => "minute must be in 0..59"
  | .second => "second must be in 0..59"

/-- What is wrong with a time of day. -/
def timeProblem? (time : TimeOfDay) : Option Problem :=
  if 24 ≤ time.hour then some .hour
  else if 60 ≤ time.minute then some .minute
  else if 60 ≤ time.second then some .second
  else none

/-- What is wrong with a moment: its offset is looked at first, and then its numbers in turn. An
offset is less than a day. -/
def problem? (moment : Timestamp) : Option Problem :=
  match moment.time?.bind (·.offset?) with
  | some offset => if 1440 ≤ offset.natAbs then some (.offset offset) else numberProblem?
  | none => numberProblem?
where
  numberProblem? : Option Problem :=
    if moment.year = 0 then some .year
    else if moment.month < 1 ∨ 12 < moment.month then some .month
    else if moment.day < 1 ∨ daysIn moment.year moment.month < moment.day then some .day
    else moment.time?.bind timeProblem?

end Timestamp

end CypherAssist.Schema
