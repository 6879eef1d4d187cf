import CypherAssist.Decimal.Double

/-! The shortest decimal text that reads back as a given number. Among the decimals that round to
the number the ones with the fewest digits are taken, and of those the one nearest to it. -/
namespace CypherAssist.Decimal

/-- A decimal: whole digits times a power of ten. -/
structure Digits where
  digits : Nat
  exponent : Int
  deriving DecidableEq, Repr

namespace Digits

/-- The decimals around a positive number that round to it, in quarters of its last place: the
distances to the midpoints below and above. Below a power of two numbers lie twice as close. -/
def margins (mantissa : Nat) (exponent : Int) : Nat × Nat :=
  (if mantissa = Nat.pow 2 52 ∧ Double.leastExponent < exponent then 1 else 2, 2)

/-- The quotient that belongs to a count of quarters of the last place. -/
def quarters (count : Nat) (exponent : Int) : Nat × Nat :=
  Double.scale count 1 (exponent - 2)

/-- A decimal as a quotient. -/
def quotient (decimal : Digits) : Nat × Nat :=
  if 0 ≤ decimal.exponent then (decimal.digits * Nat.pow 10 decimal.exponent.toNat, 1)
  else (decimal.digits, Nat.pow 10 (-decimal.exponent).toNat)

/-- Whether a decimal rounds to the number; the midpoints do where the mantissa is even. -/
def roundsTo (mantissa : Nat) (exponent : Int) (decimal : Digits) : Bool :=
  let (below, above) := margins mantissa exponent
  let (num, den) := decimal.quotient
  let (lowNum, lowDen) := quarters (4 * mantissa - below) exponent
  let (highNum, highDen) := quarters (4 * mantissa + above) exponent
  if mantissa % 2 = 0 then lowNum * den ≤ num * lowDen && num * highDen ≤ highNum * den
  else lowNum * den < num * lowDen && num * highDen < highNum * den

/-- The greatest power of ten that a positive quotient reaches. -/
def magnitude (num den : Nat) : Int :=
  let (small, large) := (den * Nat.pow 10 400, num * Nat.pow 10 800)
  (toString (large / small)).length - 401

/-- The two neighbours of a number on the grid of decimals with a given last place, the nearer one
first, of two equally near ones the even one. -/
def neighbours (mantissa : Nat) (exponent : Int) (place : Int) : List Digits :=
  let (num, den) := Double.quotient mantissa exponent
  let (num, den) :=
    if 0 ≤ place then (num, den * Nat.pow 10 place.toNat)
    else (num * Nat.pow 10 (-place).toNat, den)
  let floor := num / den
  if roundHalfEven num den = floor then [⟨floor, place⟩, ⟨floor + 1, place⟩]
  else [⟨floor + 1, place⟩, ⟨floor, place⟩]

/-- Strips zeros at the end, which carry no information. -/
def strip : Nat → Digits → Digits
  | 0, decimal => decimal
  | fuel + 1, ⟨digits, exponent⟩ =>
    if digits ≠ 0 ∧ digits % 10 = 0 then strip fuel ⟨digits / 10, exponent + 1⟩
    else ⟨digits, exponent⟩

/-- The shortest decimal of a positive number. Seventeen digits always suffice. -/
def shortest (mantissa : Nat) (exponent : Int) : Digits :=
  let (num, den) := Double.quotient mantissa exponent
  let top := magnitude num den
  let candidates := (List.range 17).flatMap fun (count : Nat) =>
    (neighbours mantissa exponent (top - (count : Nat))).filter (roundsTo mantissa exponent)
  strip 20 ((candidates.head?).getD ⟨0, 0⟩)

end Digits

/-- A fixed number of zeros. -/
def zeros (count : Nat) : String := String.ofList (List.replicate count '0')

/-- How a number is laid out: positional with at least one place after the point where the first
digit stands between the fourth place behind the point and the sixteenth before it, else with an
exponent of at least two digits and a sign. -/
def Digits.layout (decimal : Digits) : String :=
  let digits := toString decimal.digits
  let point : Int := digits.length + decimal.exponent
  if -4 < point ∧ point ≤ 16 then
    if point ≤ 0 then "0." ++ zeros (-point).toNat ++ digits
    else if digits.length ≤ point.toNat then
      digits ++ zeros (point.toNat - digits.length) ++ ".0"
    else
      String.ofList (digits.toList.take point.toNat) ++ "." ++
        String.ofList (digits.toList.drop point.toNat)
  else
    let exponent := point - 1
    let size := toString exponent.natAbs
    let fraction := digits.toList.drop 1
    String.ofList (digits.toList.take 1) ++
      (if fraction.isEmpty then "" else "." ++ String.ofList fraction) ++
      (if exponent < 0 then "e-" else "e+") ++ zeros (2 - size.length) ++ size

/-- The text of a number. Zero keeps its sign. -/
def Double.text : Double → String
  | .nan => "nan"
  | .infinite negative => (if negative then "-" else "") ++ "inf"
  | .finite negative mantissa exponent =>
    (if negative then "-" else "") ++
      if mantissa = 0 then "0.0" else (Digits.shortest mantissa exponent).layout

end CypherAssist.Decimal
