import LoadGenerator.Scalar.Basic

namespace LoadGenerator

namespace Fraction

def truncate (q : Rat) : Int := q.num.tdiv q.den

def toWord (q : Rat) : Nat :=
  let n := truncate q
  if 0 ≤ n ∧ n < Word.count then n.toNat else 0

def round (q : Rat) : Int := Binary64.signed (q.num < 0) (Rounding.halfUp q.num.natAbs q.den)

def ofDecimal (d : Decimal) : Rat :=
  let (num, den) := Rounding.scale d.coefficient 1 d.exponent
  mkRat (Binary64.signed d.negative num) den

def ofLiteral? : Literal → Option Rat
  | .number d => some (ofDecimal d)
  | _ => none

def text (q : Rat) : Bytes :=
  Text.sign (q.num < 0) ++
    (if q.num = 0 then utf8 "0" else Text.significantQuotient 6 q.num.natAbs q.den)

def fixed (places : Nat) (q : Rat) : Bytes :=
  Text.sign (q.num < 0) ++ Text.fixedQuotient places q.num.natAbs q.den

end Fraction

instance : Scalar Rat where
  decLt := fun a b => inferInstanceAs (Decidable (a < b))
  decLe := fun a b => inferInstanceAs (Decidable (a ≤ b))
  ofInt := fun n => (n : Rat)
  ofDecimal d := some (Fraction.ofDecimal d)
  ofLiteral := Fraction.ofLiteral?
  remainder x y := x - y * (Fraction.truncate (x / y) : Rat)
  isInfinite _ := false
  truncate := Fraction.truncate
  round := Fraction.round
  isWhole q := q.den = 1
  toWord q := Fraction.toWord q
  text := Fraction.text
  fixed := Fraction.fixed

end LoadGenerator
