import CypherAssist.Schema.Value

/-! Why a text gives no data. Most faults are told apart no further: the text is no YAML, or none
of the kinds that data have. A text can also be well formed and stand for a datum that there is
not. -/
namespace CypherAssist.Yaml

/-- A datum that there is not: the code of no point, a number without digits or with too many of
them, a number in base sixty with too many parts, a moment that the calendar does not have, and
collections inside each other without end. -/
inductive DatumError where
  | noPoint (code : Nat)
  | noDigits (base : Nat)
  | longNumber (digits : Nat)
  | wideNumber
  | noMoment (problem : Schema.Timestamp.Problem)
  | tooDeep
  deriving DecidableEq, Repr

namespace DatumError

/-- The greatest code that is looked at. -/
def greatestCode : Nat := 0x7fffffff

/-- The kind of failure that an error is. -/
def kind : DatumError → String
  | .noPoint code => if greatestCode < code then "OverflowError" else "ValueError"
  | .noDigits _ => "ValueError"
  | .longNumber _ => "ValueError"
  | .wideNumber => "OverflowError"
  | .noMoment _ => "ValueError"
  | .tooDeep => "RecursionError"

/-- The wording of an error. -/
def message : DatumError → String
  | .noPoint code =>
    if greatestCode < code then "Python int too large to convert to C int"
    else "chr() arg not in range(0x110000)"
  | .noDigits base => "invalid literal for int() with base " ++ toString base ++ ": ''"
  | .longNumber digits =>
    "Exceeds the limit (" ++ toString Schema.Value.mostDigits ++
      " digits) for integer string conversion: value has " ++ toString digits ++
      " digits; use sys.set_int_max_str_digits() to increase the limit"
  | .wideNumber => "int too large to convert to float"
  | .noMoment problem => problem.message
  | .tooDeep => "maximum recursion depth exceeded"

end DatumError

/-- Why a text gives no data. -/
inductive Fault where
  | invalid
  | datum (error : DatumError)
  deriving DecidableEq, Repr

/-- What there has to be in a well-formed text. -/
def Fault.require {α : Type} : Option α → Except Fault α
  | some found => .ok found
  | none => .error .invalid

end CypherAssist.Yaml
