import LoadGenerator.Load.Pacing

namespace LoadGenerator

variable {α : Type} [Scalar α]

def Rate.isPositive : Rate α → Bool
  | .unlimited => true
  | .perSecond r => Scalar.isInfinite r || decide (Scalar.zero < r)

namespace Pacing

theorem delay?_eq_none_iff (rate : Rate α) (workers : Nat) :
    delay? rate workers = none ↔ rate.isPositive = false := by
  cases rate with
  | unlimited => simp [delay?, Rate.isPositive]
  | perSecond r =>
    by_cases hinf : Scalar.isInfinite r = true
    · simp [delay?, Rate.isPositive, hinf]
    · by_cases hpos : Scalar.zero < r
      · simp [delay?, Rate.isPositive, hinf, hpos]
      · simp [delay?, Rate.isPositive, hinf, hpos]

end Pacing

end LoadGenerator
