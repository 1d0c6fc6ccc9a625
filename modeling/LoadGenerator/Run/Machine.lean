import LoadGenerator.Report.Summary
import LoadGenerator.Run.Loop

namespace LoadGenerator.Run

open Http Metrics

variable {α : Type} [Scalar α]

namespace State

def guardStopped (message : Bytes) : Notice :=
  .warning (utf8 "[MemoryGuard] Stopped: " ++ message)

def takeReading (c : Course α) (s : State α) (reading : Memory.Reading) : State α :=
  match reading with
  | .broken message => { s with watchman := .ended }.say [guardStopped message]
  | reading =>
    let (watch, recorder, _, notices) := s.watch.take s.now reading s.recorder
    ({ s with watch, recorder, watchman := .waiting }.say notices).arm
      (watch.nextWake s.now c.deadline) .guard

def poll (c : Course α) (s : State α) : State α :=
  if s.watch.goesOn s.now c.deadline then
    match s.watch.read? s.now with
    | none => { s with watchman := .waiting }.arm (s.watch.nextWake s.now c.deadline) .guard
    | some (reading, watch) =>
      let n := s.watch.readAt.length
      ({ s with watch }.publishAll (c.setting.newsAt (.reading n))).takeReading c reading
  else { s with watchman := .ended }

def beginWatch (c : Course α) (s : State α) : State α :=
  let (watch, notices) := s.watch.ensureBegun
  let s := { s with watch }.say notices
  if watch.state.active then s.poll c else { s with watchman := .ended }

def resumeGuard (c : Course α) (s : State α) : State α :=
  match s.watchman with
  | .fresh => s.beginWatch c
  | .waiting => s.poll c
  | .ended => s

def resume (c : Course α) (s : State α) : Actor → State α
  | .guard => s.resumeGuard c
  | .worker i =>
    match s.workers[i]? with
    | some w => s.resumeWorker c i w
    | none => s

/-- A wake-up ends the wait of a worker that is parked, and does nothing to any other. -/
def wake (s : State α) (i : Nat) : State α :=
  if (s.workers[i]?).any Worker.isParked then s.cancel (.worker i) else s

def perform (c : Course α) (s : State α) : Task → State α
  | .resume a => s.resume c a
  | .wake i => s.wake i

/-- Perform the first task that is ready, or else let the first timer expire; none if there is
nothing to wait for. -/
def step (c : Course α) (s : State α) : Option (State α) :=
  match s.ready, s.timers with
  | t :: ready, _ => some ({ s with ready }.perform c t)
  | [], t :: timers => some ({ s with now := max s.now t.time, timers }.resume c t.actor)
  | [], [] => none

def advance (c : Course α) : Nat → State α → State α
  | 0, s => s
  | n + 1, s =>
    match s.step c with
    | none => s
    | some s => advance c n s

def isOver (s : State α) : Bool := s.ready.isEmpty && s.timers.isEmpty

end State

def mostWorkers : Nat := 1 <<< 60 - 1

def affordableWorkers : Nat := 1 <<< 32

def refusal? (workers : Nat) : Option Bytes :=
  if mostWorkers < workers then some (utf8 "vector::reserve")
  else if affordableWorkers < workers then some (utf8 "std::bad_alloc")
  else none

namespace Course

def ofPlan (setting : Setting α) (plan : Plan α) (now : Int) : Course α :=
  ⟨setting, plan.workers, now, now + Duration.toNanos plan.duration⟩

def opening (c : Course α) (plan : Plan α) : Notice :=
  .info (utf8 "[Runner] " ++ Text.ofNat plan.workers ++ utf8 " workers on " ++
    Text.ofNat c.setting.threads ++ utf8 " threads for " ++ Scalar.text plan.duration ++
    utf8 "s, " ++ plan.load.describe)

def start (c : Course α) (channel : Channel (Plan α) Unit) (r : Recorder) : State α :=
  let plan := channel.current
  { now := c.startedAt
    ready := (List.range c.workers).map (fun i => .resume (.worker i)) ++ [.resume .guard]
    timers := []
    channel := (channel.subscribe ()).1
    updates := 0
    workers := List.replicate c.workers (.fresh c.startedAt)
    watchman := .fresh
    watch := .create plan.guard c.setting.memory
    recorder := (r.setTracking plan.percentiles).resetThroughput c.startedAt
    sent := 0
    drawn := 0
    dealt := []
    journal := []
    notices := [c.opening plan] }

def longestScenario (plans : List (Plan α)) : Nat :=
  ((plans.flatMap Plan.scenarios).map (·.steps.length)).foldl max 1

/-- More steps than a run takes whose client needs a millisecond for every reply: each worker, and
the guard, can then do only so much in every millisecond. -/
def horizon (c : Course α) (plan : Plan α) : Nat :=
  let millis := ((c.deadline - c.startedAt) / Clock.perMilli).toNat + 2
  let plans := plan :: c.setting.news.map (·.2)
  (c.workers + 1) * (millis + plans.length) * (4 * longestScenario plans + 8)

end Course

structure Outcome (α : Type) where
  summary : RunSummary α
  recorder : Recorder
  plan : Plan α
  endedAt : Int
  requests : List (Int × Request)
  closings : Nat
  trouble : Option Bytes
  notices : List Notice

namespace State

def summary (c : Course α) (s : State α) : RunSummary α :=
  let finished := s.workers.filter Worker.isFinished
  { elapsed := Float.ofInt (s.now - c.startedAt) / 1e9
    workers := c.workers
    iterations := finished.foldl (fun n w => n + w.iterations) 0
    failures := finished.foldl (fun n w => n + w.failures) 0
    guard := s.watch.state
    planUpdates := s.updates }

def requests (s : State α) : List (Int × Request) :=
  s.journal.reverse.filterMap fun
    | .sent _ time _ request => some (time, request)
    | _ => none

def outcome (c : Course α) (s : State α) : Outcome α :=
  { summary := s.summary c
    recorder := s.recorder
    plan := s.channel.current
    endedAt := s.now
    requests := s.requests
    closings := 1
    trouble := c.setting.closing
    notices := s.notices.reverse }

def refused (c : Course α) (s : State α) (message : Bytes) : Outcome α :=
  { s.outcome c with closings := 0, trouble := some message }

end State

def run (setting : Setting α) (channel : Channel (Plan α) Unit) (r : Recorder) (now : Int) :
    Outcome α :=
  let plan := channel.current
  let c := Course.ofPlan setting plan now
  match refusal? plan.workers with
  | some message => State.refused c (Course.start { c with workers := 0 } channel r) message
  | none => ((c.start channel r).advance c (c.horizon plan)).outcome c

end LoadGenerator.Run
