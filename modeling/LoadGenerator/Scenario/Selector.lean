import LoadGenerator.ConfigError
import LoadGenerator.Scalar.Basic
import LoadGenerator.Scenario.Basic

namespace LoadGenerator

/-- Scenarios, each with the sum of the weights up to its own. -/
structure Selector (α : Type) where
  scenarios : List (Scenario α)
  cumulative : List α
  total : α
  nonempty : scenarios ≠ []

namespace Selector

variable {α : Type}

theorem length_pos (s : Selector α) : 0 < s.scenarios.length :=
  List.length_pos_iff.mpr s.nonempty

variable [Scalar α]

def sums : α → List α → List α
  | _, [] => []
  | sum, w :: ws => (sum + w) :: sums (sum + w) ws

def isWeight (w : α) : Bool := decide (Scalar.zero < w) && !Scalar.isInfinite w

/-- Every entry must be there and have a finite weight above zero. -/
def entries : List (Option (Scenario α)) → Except ConfigError (List (Scenario α))
  | [] => .ok []
  | none :: _ => .error (.of "scenarios" "null scenario")
  | some s :: rest =>
    if isWeight s.weight then (entries rest).map (s :: ·)
    else .error ⟨utf8 "scenarios." ++ s.name ++ utf8 ".weight",
      utf8 "must be a finite value > 0"⟩

def ofList (list : List (Option (Scenario α))) : Except ConfigError (Selector α) := do
  let scenarios ← entries list
  if h : scenarios = [] then .error (.of "scenarios" "at least one scenario is required")
  else
    let cumulative := sums Scalar.zero (scenarios.map (·.weight))
    .ok ⟨scenarios, cumulative, cumulative.getLastD Scalar.zero, h⟩

def indexAt (s : Selector α) (u : α) : Nat :=
  let point := Scalar.clamp u Scalar.zero Scalar.one * s.total
  min (s.cumulative.findIdx (point < ·)) (s.scenarios.length - 1)

theorem indexAt_lt (s : Selector α) (u : α) : s.indexAt u < s.scenarios.length := by
  have := s.length_pos
  simp only [indexAt]
  omega

def selectAt (s : Selector α) (u : α) : Scenario α :=
  s.scenarios.get ⟨s.indexAt u, s.indexAt_lt u⟩

/-- The point of the unit interval that a random number of 53 bits stands for. -/
def point (random : Nat) : α :=
  Scalar.ofInt (random % 1 <<< 53 : Nat) / Scalar.ofInt (1 <<< 53 : Nat)

end Selector

end LoadGenerator
