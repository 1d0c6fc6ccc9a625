import LoadGenerator.Guard.Basic
import LoadGenerator.Load.Model
import LoadGenerator.Scenario.Selector

namespace LoadGenerator

structure Plan (α : Type) where
  baseUrl : Bytes
  workers : Nat
  duration : α
  timeoutMs : Int
  /-- How many of a hundred latencies are kept. -/
  sampling : Nat
  percentiles : Bool
  load : LoadModel α
  guard : GuardConfig α
  request : Option RequestTemplate
  selector : Option (Selector α)

namespace Plan

variable {α : Type} [Scalar α]

def usualTimeoutMs : Int := 30000

def usual : Plan α :=
  { baseUrl := utf8 "http://localhost:8080"
    workers := 10
    duration := Scalar.ofInt 60
    timeoutMs := usualTimeoutMs
    sampling := 100
    percentiles := true
    load := .concurrent
    guard := .usual
    request := none
    selector := none }

def scenarios (p : Plan α) : List (Scenario α) := (p.selector.map (·.scenarios)).getD []

end Plan

end LoadGenerator
