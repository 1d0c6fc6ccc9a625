import LoadGenerator.Load.Model

namespace LoadGenerator.Pacing

variable {α : Type} [Scalar α]

/-- No pause is longer than an hour, and a worker without a target looks again after as long. -/
def longestMs : Nat := 3600000

/-- The pause of one of `workers` workers in whole milliseconds, none at all for an unlimited
target; a worker without a positive target has to wait for one. -/
def delay? (rate : Rate α) (workers : Nat) : Option Nat :=
  match rate with
  | .unlimited => some 0
  | .perSecond r =>
    if Scalar.isInfinite r then some 0
    else if Scalar.zero < r then
      let ms := Scalar.ofInt workers * Scalar.ofInt 1000 / r
      some (Scalar.round (Scalar.min ms (Scalar.ofInt longestMs))).toNat
    else none

/-- How far into the first cycle of `cycleMs` worker `id` of `count` starts. -/
def stagger (id count : Nat) (cycleMs : Int) : Nat :=
  if count = 0 then 0 else cycleMs.toNat * (id % count) / count

end LoadGenerator.Pacing
