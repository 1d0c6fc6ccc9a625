
namespace LoadGenerator

structure Channel (π lam : Type) where
  current : π
  /-- One more than the number of publishes. -/
  version : Nat
  listeners : List (Nat × lam)
  nextId : Nat

structure Announcement (π lam : Type) where
  listener : lam
  plan : π
  version : Nat

namespace Channel

variable {π lam : Type}

def ofPlan (plan : π) : Channel π lam := ⟨plan, 1, [], 1⟩

def subscribe (c : Channel π lam) (listener : lam) : Channel π lam × Nat :=
  ({ c with listeners := c.listeners ++ [(c.nextId, listener)], nextId := c.nextId + 1 }, c.nextId)

def unsubscribe (c : Channel π lam) (id : Nat) : Channel π lam :=
  { c with listeners := c.listeners.filter fun (i, _) => i ≠ id }

def publish (c : Channel π lam) (plan : π) : Channel π lam × List (Announcement π lam) :=
  ({ c with current := plan, version := c.version + 1 },
    c.listeners.map fun (_, l) => ⟨l, plan, c.version + 1⟩)

end Channel

end LoadGenerator
