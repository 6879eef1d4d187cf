/-! Binary floating-point numbers of double precision, as exact values. A finite number is a whole
mantissa times a power of two; a quotient of whole numbers is rounded to the nearest such number,
and of two equally near ones to the one with the even mantissa. -/
namespace CypherAssist.Decimal

/-- A double-precision number. The mantissa is below 2^53, and at least 2^52 unless the exponent is
the least one. -/
inductive Double where
  | finite (negative : Bool) (mantissa : Nat) (exponent : Int)
  | infinite (negative : Bool)
  | nan
  deriving DecidableEq, Repr

/-- A fraction rounded to a whole number, halves to the even neighbour. -/
def roundHalfEven (num den : Nat) : Nat :=
  let floor := num / den
  let rest := 2 * (num % den)
  if rest < den then floor
  else if den < rest then floor + 1
  else floor + floor % 2

namespace Double

/-- The exponent of the least positive number. -/
def leastExponent : Int := -1074

/-- The exponent above which a mantissa of 53 bits is too large. -/
def greatestExponent : Int := 971

/-- A fraction times a power of two. -/
def scale (num den : Nat) (exponent : Int) : Nat × Nat :=
  if 0 ≤ exponent then (num * Nat.pow 2 exponent.toNat, den)
  else (num, den * Nat.pow 2 (-exponent).toNat)

/-- The number nearest to a quotient. -/
def ofQuotient (negative : Bool) (num den : Nat) : Double :=
  if num = 0 then .finite negative 0 leastExponent
  else
    let estimate := max ((num.log2 : Int) - den.log2 - 53) leastExponent
    let (coarseNum, coarseDen) := scale num den (-estimate)
    let exponent := if Nat.pow 2 53 ≤ coarseNum / coarseDen then estimate + 1 else estimate
    let (fineNum, fineDen) := scale num den (-exponent)
    let mantissa := roundHalfEven fineNum fineDen
    let (mantissa, exponent) :=
      if mantissa = Nat.pow 2 53 then (Nat.pow 2 52, exponent + 1) else (mantissa, exponent)
    if greatestExponent < exponent then .infinite negative
    else .finite negative mantissa exponent

/-- The number nearest to a decimal. Beyond a few hundred places every decimal rounds to zero or is
too large, whatever its digits. -/
def ofDecimal (negative : Bool) (digits : Nat) (exponent : Int) : Double :=
  let magnitude : Int := (toString digits).length + exponent
  if digits = 0 ∨ magnitude < -400 then .finite negative 0 leastExponent
  else if 400 < magnitude then .infinite negative
  else if 0 ≤ exponent then ofQuotient negative (digits * Nat.pow 10 exponent.toNat) 1
  else ofQuotient negative digits (Nat.pow 10 (-exponent).toNat)

/-- The size of a finite number as a quotient. -/
def quotient (mantissa : Nat) (exponent : Int) : Nat × Nat :=
  scale mantissa 1 exponent

/-- Whether the number is zero, of either sign. -/
def isZero : Double → Bool
  | .finite _ mantissa _ => mantissa = 0
  | _ => false

/-- The whole number that a number is equal to. -/
def toInt? : Double → Option Int
  | .finite negative mantissa exponent =>
    let (num, den) := quotient mantissa exponent
    if num % den = 0 then
      let size : Int := ((num / den : Nat) : Int)
      some (if negative then -size else size)
    else none
  | _ => none

/-- The product of two numbers without a sign, rounded. -/
def times : Double → Double → Double
  | .finite _ mantissa exponent, .finite _ mantissa' exponent' =>
    let (num, den) := quotient mantissa exponent
    let (num', den') := quotient mantissa' exponent'
    ofQuotient false (num * num') (den * den')
  | .nan, _ => .nan
  | _, .nan => .nan
  | first, second => if first.isZero || second.isZero then .nan else .infinite false

/-- The sum of two numbers without a sign, rounded. -/
def plus : Double → Double → Double
  | .finite _ mantissa exponent, .finite _ mantissa' exponent' =>
    let (num, den) := quotient mantissa exponent
    let (num', den') := quotient mantissa' exponent'
    ofQuotient false (num * den' + num' * den) (den * den')
  | .nan, _ => .nan
  | _, .nan => .nan
  | .infinite negative, _ => .infinite negative
  | _, .infinite negative => .infinite negative

/-- The number with a sign of its own. -/
def withSign (negative : Bool) : Double → Double
  | .finite _ mantissa exponent => .finite negative mantissa exponent
  | .infinite _ => .infinite negative
  | .nan => .nan

end Double

end CypherAssist.Decimal
