import LoadGenerator.Guard.Watch
import LoadGenerator.Plan.Channel
import LoadGenerator.Run.Account
import LoadGenerator.Run.Setting
import LoadGenerator.Run.Worker

namespace LoadGenerator.Run

open Http Metrics

inductive Actor where
  | worker (id : Nat)
  | guard
  deriving DecidableEq, Repr

inductive Task where
  | resume (a : Actor)
  /-- End the wait of a worker, if it is parked. -/
  | wake (id : Nat)
  deriving DecidableEq, Repr

structure Timer where
  time : Int
  actor : Actor
  deriving DecidableEq, Repr

inductive Event (α : Type) where
  /-- A worker takes up its first plan, and finds out when it is due. -/
  | begun (worker : Nat) (time : Int) (edition : Edition α)
  /-- A worker computes its pause, and begins a unit of work unless there is nothing to pace. -/
  | paced (worker : Nat) (time : Int) (edition : Edition α) (delayMs : Option Nat)
  | sent (worker : Nat) (time : Int) (edition : Edition α) (request : Request)
  | ended (worker : Nat) (time : Int) (job : Job α) (work : Work)
  | published (time : Int) (version : Nat) (plan : Plan α)

inductive Watchman where
  | fresh
  | waiting
  | ended
  deriving DecidableEq, Repr

structure State (α : Type) where
  now : Int
  ready : List Task
  timers : List Timer
  channel : Channel (Plan α) Unit
  updates : Nat
  workers : List (Worker α)
  watchman : Watchman
  watch : GuardWatch α
  recorder : Recorder
  sent : Nat
  drawn : Nat
  /-- How many rows have been dealt for each scenario of each version. -/
  dealt : List ((Nat × Nat) × Nat)
  journal : List (Event α)
  notices : List Notice

def Timer.insert (t : Timer) : List Timer → List Timer
  | [] => [t]
  | u :: ts => if u.time ≤ t.time then u :: insert t ts else t :: u :: ts

namespace State

variable {α : Type}

def say (s : State α) (notices : List Notice) : State α :=
  { s with notices := notices.reverse ++ s.notices }

def note (s : State α) (e : Event α) : State α := { s with journal := e :: s.journal }

def post (s : State α) (t : Task) : State α := { s with ready := s.ready ++ [t] }

def hurry (s : State α) (t : Task) : State α := { s with ready := t :: s.ready }

def arm (s : State α) (time : Int) (a : Actor) : State α :=
  { s with timers := Timer.insert ⟨time, a⟩ s.timers }

def cancel (s : State α) (a : Actor) : State α :=
  if s.timers.any (·.actor = a) then
    { s with timers := s.timers.filter (·.actor ≠ a) }.post (.resume a)
  else s

def setWorker (s : State α) (i : Nat) (w : Worker α) : State α :=
  { s with workers := s.workers.set i w }

/-- Publish a plan. Every listener asks for all workers to be woken. -/
def publish (s : State α) (plan : Plan α) : State α :=
  let (channel, calls) := s.channel.publish plan
  let wakes := calls.flatMap fun _ => (List.range s.workers.length).map Task.wake
  { s with
    channel := channel
    updates := s.updates + calls.length
    ready := s.ready ++ wakes }.note (.published s.now channel.version plan)

def publishAll (s : State α) (plans : List (Plan α)) : State α := plans.foldl publish s

def draw (s : State α) (c : Course α) : Nat × State α :=
  (c.setting.random s.drawn, { s with drawn := s.drawn + 1 })

def dealtOf (s : State α) (key : Nat × Nat) : Nat := (List.lookup key s.dealt).getD 0

def deal (s : State α) (key : Nat × Nat) (table : Option Table) : Row × State α :=
  match table with
  | none => ([], s)
  | some t =>
    let n := s.dealtOf key
    (t.deal n, { s with dealt := (key, n + 1) :: s.dealt.filter (·.1 ≠ key) })

def edition (s : State α) : Edition α := ⟨s.channel.current, s.channel.version⟩

end State

end LoadGenerator.Run
