import LoadGenerator.Text.Bytes

namespace LoadGenerator

namespace Pattern

structure ByteSet where
  negated : Bool
  ranges : List (UInt8 × UInt8)
  deriving DecidableEq, Repr

namespace ByteSet

def contains (s : ByteSet) (b : UInt8) : Bool :=
  s.ranges.any (fun (low, high) => low ≤ b && b ≤ high) != s.negated

def single (b : UInt8) : ByteSet := ⟨false, [(b, b)]⟩

def any : ByteSet := ⟨true, []⟩

end ByteSet

inductive Expr where
  | empty
  | set (s : ByteSet)
  | textStart
  | textEnd
  | wordBoundary (negated : Bool)
  | group (number : Nat) (e : Expr)
  | seq (first second : Expr)
  | alt (first second : Expr)
  | repeated (least : Nat) (most : Option Nat) (greedy : Bool) (e : Expr)
  deriving DecidableEq, Repr

end Pattern

end LoadGenerator
