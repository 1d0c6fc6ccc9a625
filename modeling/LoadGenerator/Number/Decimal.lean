import LoadGenerator.Number.Binary64
import LoadGenerator.Text.Bytes

namespace LoadGenerator

/-- The number `± coefficient * 10 ^ exponent`. -/
structure Decimal where
  negative : Bool
  coefficient : Nat
  exponent : Int
  deriving DecidableEq, Repr

namespace Decimal

def ofInt (n : Int) : Decimal := ⟨decide (n < 0), n.natAbs, 0⟩

/-- The nearest double, if the number is not past the largest one. Far below the least positive
double the digits make no difference any more. -/
def toFloat? (d : Decimal) : Option Float :=
  let reach := d.exponent + Rounding.digitCount d.coefficient
  if d.coefficient = 0 ∨ reach < -400 then Binary64.nearest? d.negative 0 1
  else if 400 < reach then none
  else
    let (num, den) := Rounding.scale d.coefficient 1 d.exponent
    Binary64.nearest? d.negative num den

def stripZeros : Nat → Nat → Int → Nat × Int
  | 0, n, x => (n, x)
  | fuel + 1, n, x => if n ≠ 0 ∧ n % 10 = 0 then stripZeros fuel (n / 10) (x + 1) else (n, x)

/-- Whether `n * 10 ^ x` lies among the reals that round to the double `m * 2 ^ e`. -/
def roundsTo (m : Nat) (e : Int) (n : Nat) (x : Int) : Bool :=
  let narrow := m = Binary64.leastNormal ∧ -1074 < e
  let (num, den) := Binary64.quotient 1 (e - 2)
  let low := (4 * m - (if narrow then 1 else 2)) * num
  let high := (4 * m + 2) * num
  let (p, q) := Rounding.scale n 1 x
  if m % 2 = 0 then low * q ≤ p * den ∧ p * den ≤ high * q
  else low * q < p * den ∧ p * den < high * q

def nearerOf (num den : Nat) (good : Nat → Bool) : Option Nat :=
  let below := num / den
  let nearest := Rounding.toEven num den
  let other := if nearest = below then below + 1 else below
  if good nearest then some nearest else if good other then some other else none

/-- The fewest digits, from `n` on, with which some decimal reads back as `m * 2 ^ e`. -/
def shortestFrom (m : Nat) (e : Int) (top : Int) : Nat → Nat → Nat × Int
  | 0, _ => (m, e)
  | fuel + 1, n =>
    let x := top - n + 1
    let (num, den) := Binary64.quotient m e
    let (num, den) := Rounding.scale num den (-x)
    match nearerOf num den (roundsTo m e · x) with
    | some k => stripZeros 20 k x
    | none => shortestFrom m e top fuel (n + 1)

/-- The shortest decimal that reads back as a given double, and the nearest to it of those. -/
def shortest (x : Float) : Option Decimal :=
  match Binary64.ofFloat x with
  | .finite negative m e =>
    if m = 0 then some ⟨negative, 0, 0⟩
    else
      let (num, den) := Binary64.quotient m e
      let (n, x) := shortestFrom m e (Rounding.magnitude num den) 17 1
      some ⟨negative, n, x⟩
  | _ => none

end Decimal

namespace Text

def ofNatPadded (width n : Nat) : Bytes :=
  let digits := ofNat n
  List.replicate (width - digits.length) 48 ++ digits

def sign (negative : Bool) : Bytes := if negative then utf8 "-" else []

/-- `num / den` with exactly `places` digits after the point, a tie to the even digit. -/
def fixedQuotient (places num den : Nat) : Bytes :=
  let n := Rounding.toEven (num * Nat.pow 10 places) den
  if places = 0 then ofNat n
  else ofNat (n / Nat.pow 10 places) ++ utf8 "." ++ ofNatPadded places (n % Nat.pow 10 places)

def exponent (x : Int) : Bytes :=
  utf8 "e" ++ utf8 (if x < 0 then "-" else "+") ++ ofNatPadded 2 x.natAbs

def pointAfter (whole : Nat) (digits : Bytes) : Bytes :=
  let fraction := digits.drop whole
  if fraction.isEmpty then digits else digits.take whole ++ utf8 "." ++ fraction

/-- A positive quotient with at most `places` significant digits: positional from `0.0001` up to
`places` digits before the point, else with a power of ten. Zeros at the end are left out. -/
def significantQuotient (places num den : Nat) : Bytes :=
  let top := Rounding.magnitude num den
  let (p, q) := Rounding.scale num den (places - 1 - top)
  let n := Rounding.toEven p q
  let (n, top) := if n = Nat.pow 10 places then (Nat.pow 10 (places - 1), top + 1) else (n, top)
  let digits := Bytes.dropRightWhile (· == 48) (ofNat n)
  if top < -4 ∨ (places : Int) ≤ top then pointAfter 1 digits ++ exponent top
  else if top < 0 then utf8 "0." ++ List.replicate (-top - 1).toNat 48 ++ digits
  else
    let whole := top.toNat + 1
    pointAfter whole (digits ++ List.replicate (whole - digits.length) 48)

def special (negative : Bool) (word : String) : Bytes := sign negative ++ utf8 word

def fixed (places : Nat) (x : Float) : Bytes :=
  match Binary64.ofFloat x with
  | .finite negative m e =>
    let (num, den) := Binary64.quotient m e
    sign negative ++ fixedQuotient places num den
  | .infinite negative => special negative "inf"
  | .notNumber => utf8 "nan"

def significant (places : Nat) (x : Float) : Bytes :=
  match Binary64.ofFloat x with
  | .finite negative m e =>
    let (num, den) := Binary64.quotient m e
    sign negative ++ (if m = 0 then utf8 "0" else significantQuotient places num den)
  | .infinite negative => special negative "inf"
  | .notNumber => utf8 "nan"

end Text

end LoadGenerator
