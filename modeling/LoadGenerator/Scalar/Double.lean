import LoadGenerator.Number.Double
import LoadGenerator.Scalar.Basic

namespace LoadGenerator

namespace Binary64

/-- A whole number that fits in 64 bits with a sign; all else becomes the least such number. -/
def toInt64 : Option Int → Int
  | some n => if -(Word.half : Int) ≤ n ∧ n < Word.half then n else -(Word.half : Int)
  | none => -(Word.half : Int)

def toWord : Option Int → Nat
  | some n => if 0 ≤ n ∧ n < Word.count then n.toNat else 0
  | none => 0

def isInfinite : Binary64 → Bool
  | .infinite _ => true
  | _ => false

def isWhole : Binary64 → Bool
  | .finite _ m e =>
    let (num, den) := quotient m e
    num % den = 0
  | .infinite _ => true
  | .notNumber => false

end Binary64

namespace Double

def exact (x : Double) : Binary64 := .ofFloat x.value

def ofDecimal? (d : Decimal) : Option Double := d.toFloat?.map ofFloat

/-- The double of a literal. A number other than zero must not become zero. -/
def ofLiteral? : Literal → Option Double
  | .number d => (ofDecimal? d).filter fun x => d.coefficient = 0 || x.value != 0
  | .infinity negative => some (ofFloat (Binary64.infinite negative).toFloat)
  | .notNumber negative => some ⟨Binary64.notNumber.toFloat, negative⟩

end Double

instance : Scalar Double where
  decLt := inferInstance
  decLe := inferInstance
  ofInt n := .ofFloat (.ofInt n)
  ofDecimal := Double.ofDecimal?
  ofLiteral := Double.ofLiteral?
  remainder := Double.lift fun x y => (Binary64.remainder (.ofFloat x) (.ofFloat y)).toFloat
  isInfinite x := x.exact.isInfinite
  truncate x := Binary64.toInt64 x.exact.truncate?
  round x := Binary64.toInt64 x.exact.round?
  isWhole x := x.exact.isWhole
  toWord x := Binary64.toWord x.exact.truncate?
  text := Double.text (Text.significant 6)
  fixed places := Double.text (Text.fixed places)

end LoadGenerator
