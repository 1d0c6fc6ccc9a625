import LoadGenerator.Number.Word
import LoadGenerator.Number.Rounding

namespace LoadGenerator

/-- What a double stands for: `± mantissa * 2 ^ exponent`, an infinity, or no number. -/
inductive Binary64 where
  | finite (negative : Bool) (mantissa : Nat) (exponent : Int)
  | infinite (negative : Bool)
  | notNumber
  deriving DecidableEq, Repr

namespace Binary64

abbrev leastNormal : Nat := 1 <<< 52

def ofFloat (x : Float) : Binary64 :=
  let bits := x.toBits.toNat
  let negative := decide (Word.half ≤ bits)
  let biased : Nat := (bits >>> 52) % 2048
  let fraction : Nat := bits % leastNormal
  if biased = 2047 then (if fraction = 0 then .infinite negative else .notNumber)
  else if biased = 0 then .finite negative fraction (-1074)
  else .finite negative (leastNormal + fraction) ((biased : Int) - 1075)

def quotient (mantissa : Nat) (exponent : Int) : Nat × Nat :=
  if 0 ≤ exponent then (mantissa <<< exponent.toNat, 1)
  else (mantissa, 1 <<< (-exponent).toNat)

/-- The bits of the double nearest to a positive `num / den`, a tie to the even mantissa; none if
that is past the largest double. -/
def nearestBits? (num den : Nat) : Option Nat :=
  let guess : Int := (num.log2 : Int) - den.log2 - 52
  let (n, d) := quotient num (-guess)
  let fits := leastNormal * (d * den) ≤ n
  let exponent := max (if fits then guess else guess - 1) (-1074)
  let (n, d) := quotient num (-exponent)
  let mantissa := Rounding.toEven n (d * den)
  let (mantissa, exponent) :=
    if mantissa = 2 * leastNormal then (leastNormal, exponent + 1) else (mantissa, exponent)
  if mantissa < leastNormal then some mantissa
  else if 971 < exponent then none
  else some ((exponent + 1075).toNat * leastNormal + (mantissa - leastNormal))

def nearest? (negative : Bool) (num den : Nat) : Option Float :=
  (if num = 0 then some 0 else nearestBits? num den).map fun bits =>
    Float.ofBits (UInt64.ofNat (if negative then Word.half + bits else bits))

def signed (negative : Bool) (n : Nat) : Int := if negative then -(n : Int) else n

def truncate? : Binary64 → Option Int
  | .finite negative m e =>
    let (num, den) := quotient m e
    some (signed negative (num / den))
  | _ => none

/-- The nearest whole number to a finite value, a tie away from zero. -/
def round? : Binary64 → Option Int
  | .finite negative m e =>
    let (num, den) := quotient m e
    some (signed negative (Rounding.halfUp num den))
  | _ => none

def remainder : Binary64 → Binary64 → Binary64
  | .finite negative m e, .finite _ n f =>
    if n = 0 then .notNumber
    else if e ≤ f then .finite negative (m % n <<< (f - e).toNat) e
    else .finite negative (m <<< (e - f).toNat % n) f
  | .finite negative m e, .infinite _ => .finite negative m e
  | _, _ => .notNumber

def toFloat : Binary64 → Float
  | .finite negative m e =>
    let (num, den) := quotient m e
    (nearest? negative num den).getD (if negative then -1 / 0 else 1 / 0)
  | .infinite negative => if negative then -1 / 0 else 1 / 0
  | .notNumber => 0 / 0

end Binary64

end LoadGenerator
