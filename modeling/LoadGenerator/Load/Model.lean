import LoadGenerator.ConfigError
import LoadGenerator.Scalar.Basic

namespace LoadGenerator

structure PhaseShares (α : Type) where
  morning : α
  peak : α
  decline : α
  midday : α
  evening : α

namespace PhaseShares

variable {α : Type}

def toList (s : PhaseShares α) : List α := [s.morning, s.peak, s.decline, s.midday, s.evening]

def ofList? : List α → Option (PhaseShares α)
  | [morning, peak, decline, midday, evening] => some ⟨morning, peak, decline, midday, evening⟩
  | _ => none

variable [Scalar α]

def sum (s : PhaseShares α) : α := s.toList.foldl (· + ·) Scalar.zero

def usual : PhaseShares α :=
  let tenth : α := Scalar.one / Scalar.ofInt 10
  let fifth : α := Scalar.ofInt 2 / Scalar.ofInt 10
  ⟨tenth, fifth, tenth, fifth, tenth⟩

end PhaseShares

/-- A repeated day: up from `min` to `max`, a while there, down to `mid`, a while there, down to
`min`, and night. -/
structure Day (α : Type) where
  min : α
  mid : α
  max : α
  cycle : α
  shares : PhaseShares α

inductive LoadModel (α : Type) where
  /-- Every worker fires again as soon as it is done. -/
  | concurrent
  | constant (target : α)
  | ramp (min max seconds : α)
  | daily (day : Day α)

inductive Rate (α : Type) where
  | unlimited
  | perSecond (rate : α)

variable {α : Type} [Scalar α]

namespace Day

/-- The value after `elapsed` of `span` on the way from `a` to `b`. -/
def slope (a b elapsed span : α) : α :=
  if span ≤ Scalar.zero then b else a + (b - a) * (elapsed / span)

def rate (d : Day α) (elapsed : α) : α :=
  if d.cycle ≤ Scalar.zero then d.max
  else
    let t := Scalar.remainder (Scalar.max elapsed Scalar.zero) d.cycle
    let morning := d.cycle * d.shares.morning
    let peak := morning + d.cycle * d.shares.peak
    let decline := peak + d.cycle * d.shares.decline
    let midday := decline + d.cycle * d.shares.midday
    let evening := midday + d.cycle * d.shares.evening
    if t < morning then slope d.min d.max t morning
    else if t < peak then d.max
    else if t < decline then slope d.max d.mid (t - peak) (decline - peak)
    else if t < midday then d.mid
    else if t < evening then slope d.mid d.min (t - midday) (evening - midday)
    else d.min

end Day

namespace LoadModel

def rampRate (min max seconds elapsed : α) : α :=
  if seconds ≤ Scalar.zero then max
  else min + (max - min) * Scalar.clamp (elapsed / seconds) Scalar.zero Scalar.one

def rate (m : LoadModel α) (elapsed : α) : Rate α :=
  match m with
  | .concurrent => .unlimited
  | .constant target => .perSecond target
  | .ramp min max seconds => .perSecond (rampRate min max seconds elapsed)
  | .daily day => .perSecond (day.rate elapsed)

def describe : LoadModel α → Bytes
  | .concurrent => utf8 "Concurrent"
  | .constant target => utf8 "Rps(" ++ Scalar.text target ++ utf8 ")"
  | .ramp min max seconds =>
    utf8 "RampRps(" ++ Scalar.text min ++ utf8 " -> " ++ Scalar.text max ++ utf8 " over " ++
      Scalar.text seconds ++ utf8 "s)"
  | .daily day =>
    utf8 "DailyTraffic(min=" ++ Scalar.text day.min ++ utf8 ", mid=" ++ Scalar.text day.mid ++
      utf8 ", max=" ++ Scalar.text day.max ++ utf8 ", cycle=" ++ Scalar.text day.cycle ++
      utf8 "s)"

def ratioWarning (sum : α) : Bytes :=
  utf8 "daily traffic ratios sum to " ++ Scalar.text sum ++
    utf8 " (> 1.0); the night phase is skipped and later phases are truncated at the cycle boundary"

def validate : LoadModel α → Except ConfigError (List Bytes)
  | .concurrent => .ok []
  | .constant target =>
    if Scalar.isNonnegative target then .ok []
    else .error (.of "load.target" "must be >= 0")
  | .ramp min max seconds =>
    if !(Scalar.isNonnegative min && Scalar.isNonnegative max) then
      .error (.of "load.min/max" "must be >= 0")
    else if !Scalar.isNonnegative seconds then
      .error (.of "load.rampDuration" "must be non-negative")
    else if max < min then .ok [utf8 "ramp min exceeds max; the curve will decline"]
    else .ok []
  | .daily day =>
    if !([day.min, day.mid, day.max].all Scalar.isNonnegative) then
      .error (.of "load.min/mid/max" "must be >= 0")
    else if !Scalar.isNonnegative day.cycle then
      .error (.of "load.cycleDuration" "must be non-negative")
    else if !day.shares.toList.all Scalar.isNonnegative then
      .error (.of "load.ratios" "must be >= 0")
    else if Scalar.one < day.shares.sum then .ok [ratioWarning day.shares.sum]
    else .ok []

end LoadModel

end LoadGenerator
