import LoadGenerator.Number.Literal

namespace LoadGenerator

class Scalar (α : Type) extends Add α, Sub α, Mul α, Div α, LT α, LE α where
  decLt : DecidableLT α
  decLe : DecidableLE α
  ofInt : Int → α
  /-- None where the number lies beyond the largest one of the arithmetic. -/
  ofDecimal : Decimal → Option α
  /-- None where the literal has no value here, or one too small to be told from zero. -/
  ofLiteral : Literal → Option α
  /-- The remainder after dividing into whole parts, with the sign of the dividend. -/
  remainder : α → α → α
  isInfinite : α → Bool
  /-- The whole number next to a value on the side of zero. -/
  truncate : α → Int
  /-- The nearest whole number, a tie away from zero. -/
  round : α → Int
  isWhole : α → Bool
  /-- The whole part of a positive number in a word of 64 bits, 0 if it does not fit. -/
  toWord : α → Nat
  /-- At most six significant digits. -/
  text : α → Bytes
  fixed : Nat → α → Bytes

namespace Scalar

variable {α : Type} [Scalar α]

instance : DecidableLT α := decLt
instance : DecidableLE α := decLe

def zero : α := ofInt 0

def one : α := ofInt 1

def isNumber (x : α) : Bool := x ≤ x

def isNonnegative (x : α) : Bool := isNumber x && !decide (x < zero)

def max (x y : α) : α := if x < y then y else x

def min (x y : α) : α := if y < x then y else x

def clamp (x low high : α) : α := if x < low then low else if high < x then high else x

end Scalar

end LoadGenerator
