import LoadGenerator.Number.Decimal

namespace LoadGenerator

/-- A double. There are two that are no numbers, and only their texts tell them apart. -/
structure Double where
  value : Float
  /-- Whether this is the negative one of those that are no numbers. -/
  negativeNaN : Bool
  deriving Inhabited

namespace Double

def ofFloat (x : Float) : Double := ⟨x, false⟩

def computed (x : Float) : Double := ⟨x, x.isNaN⟩

def lift (f : Float → Float → Float) (x y : Double) : Double :=
  if x.value.isNaN then x
  else if y.value.isNaN then y
  else computed (f x.value y.value)

instance : Add Double := ⟨lift (· + ·)⟩
instance : Sub Double := ⟨lift (· - ·)⟩
instance : Mul Double := ⟨lift (· * ·)⟩
instance : Div Double := ⟨lift (· / ·)⟩
instance : LT Double := ⟨fun x y => x.value < y.value⟩
instance : LE Double := ⟨fun x y => x.value ≤ y.value⟩

instance : DecidableLT Double := fun x y => inferInstanceAs (Decidable (x.value < y.value))
instance : DecidableLE Double := fun x y => inferInstanceAs (Decidable (x.value ≤ y.value))

def text (print : Float → Bytes) (x : Double) : Bytes :=
  if x.negativeNaN then utf8 "-nan" else print x.value

end Double

end LoadGenerator
