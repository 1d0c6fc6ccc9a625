import LoadGenerator.Plan.Basic

namespace LoadGenerator

structure RunSummary (α : Type) where
  elapsed : Float
  workers : Nat
  iterations : Nat
  failures : Nat
  guard : GuardState α
  planUpdates : Nat

end LoadGenerator
