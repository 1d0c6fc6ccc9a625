import LoadGenerator.Data.SortedMap
import LoadGenerator.Http.Category

namespace LoadGenerator.Metrics

open Http

structure RequestOutcome where
  label : Bytes
  status : Option Nat
  category : Option ErrorCategory
  deriving DecidableEq, Repr

structure ScenarioOutcome where
  name : Bytes
  success : Bool
  interrupted : Bool
  deriving DecidableEq, Repr

structure Totals where
  requests : Nat
  transportErrors : Nat
  statusCodes : SortedMap Nat Nat
  categories : List Nat
  scenarios : Nat
  successes : Nat
  failures : Nat
  interrupted : Nat
  deriving DecidableEq, Repr

namespace Totals

def zero : Totals := ⟨0, 0, [], ErrorCategory.all.map fun _ => 0, 0, 0, 0, 0⟩

def errors (t : Totals) : Nat := t.categories.foldl (· + ·) 0

def addCategory (counts : List Nat) (c : Option ErrorCategory) : List Nat :=
  (ErrorCategory.all.zip counts).map fun (d, n) => if c = some d then n + 1 else n

def addRequest (t : Totals) (o : RequestOutcome) : Totals :=
  let t := { t with requests := t.requests + 1, categories := addCategory t.categories o.category }
  match o.status with
  | some status => { t with statusCodes := SortedMap.alter t.statusCodes status 0 (· + 1) }
  | none => { t with transportErrors := t.transportErrors + 1 }

def addScenario (t : Totals) (o : ScenarioOutcome) : Totals :=
  let t := { t with scenarios := t.scenarios + 1 }
  if o.success then { t with successes := t.successes + 1 }
  else if o.interrupted then { t with interrupted := t.interrupted + 1 }
  else { t with failures := t.failures + 1 }

end Totals

end LoadGenerator.Metrics
