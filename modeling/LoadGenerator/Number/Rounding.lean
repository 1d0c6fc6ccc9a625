
namespace LoadGenerator.Rounding

/-- `num / den` rounded to the nearest whole number, a tie to the even neighbour. -/
def toEven (num den : Nat) : Nat :=
  let q := num / den
  let r := num % den
  if 2 * r < den then q
  else if den < 2 * r then q + 1
  else q + q % 2

def halfUp (num den : Nat) : Nat := (2 * num + den) / (2 * den)

def digitCount (n : Nat) : Nat := (Nat.toDigits 10 n).length

def magnitude (num den : Nat) : Int :=
  if den ≤ num then (digitCount (num / den) : Int) - 1
  else -(digitCount ((den - 1) / num) : Int)

def scale (num den : Nat) (x : Int) : Nat × Nat :=
  if 0 ≤ x then (num * Nat.pow 10 x.toNat, den) else (num, den * Nat.pow 10 (-x).toNat)

end LoadGenerator.Rounding
