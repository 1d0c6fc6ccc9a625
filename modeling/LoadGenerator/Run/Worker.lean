import LoadGenerator.Plan.Basic
import LoadGenerator.Run.Account

namespace LoadGenerator.Run

open Http

structure Edition (α : Type) where
  plan : Plan α
  version : Nat

/-- A unit of work: the plan under which it is done, and the pause that was computed before it. -/
structure Job (α : Type) where
  edition : Edition α
  delayMs : Nat

inductive Purpose where
  /-- Itself, and measured under its label. -/
  | bare (label : Bytes)
  | step (x : Execution) (p : Execution.Progress) (step : Step)

inductive Act where
  | send (request : Request) (purpose : Purpose)
  | think (ms : Int) (x : Execution) (p : Execution.Progress)
  | complete (jar : CookieJar) (work : Work)
  | stop (message : Bytes)

def Act.ofDemand (x : Execution) (now : Int) : Execution.Demand → Act
  | .send request step p => .send request (.step x p step)
  | .pause ms p => .think ms x p
  | .finished verdict p => .complete p.jar (.scenario (x.result verdict p now))

inductive Phase (α : Type) where
  | fresh
  | pausing
  | parked
  | sending (job : Job α) (purpose : Purpose) (sentAt : Int) (answer : Answer)
  | thinking (job : Job α) (x : Execution) (p : Execution.Progress)
  | finished
  | stopped

structure Worker (α : Type) where
  phase : Phase α
  edition : Option (Edition α)
  nextFire : Int
  jar : CookieJar
  reported : List TransportKind
  iterations : Nat
  failures : Nat
  parks : Nat

namespace Worker

variable {α : Type}

def fresh (start : Int) : Worker α := ⟨.fresh, none, start, [], [], 0, 0, 0⟩

def isParked (w : Worker α) : Bool :=
  match w.phase with
  | .parked => true
  | _ => false

def isFinished (w : Worker α) : Bool :=
  match w.phase with
  | .finished => true
  | _ => false

def count (w : Worker α) (ok : Bool) : Worker α :=
  { w with iterations := w.iterations + 1, failures := w.failures + (!ok).toNat }

end Worker

end LoadGenerator.Run
