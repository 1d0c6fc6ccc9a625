import LoadGenerator.Metrics.Labelled
import LoadGenerator.Metrics.Outcome
import LoadGenerator.Metrics.Throughput
import LoadGenerator.Report.Notice

namespace LoadGenerator.Metrics

inductive Tracker where
  | request
  | scenario
  | step
  deriving DecidableEq, Repr

inductive Event where
  | request (outcome : RequestOutcome)
  | scenario (outcome : ScenarioOutcome)
  deriving DecidableEq, Repr

structure Recorder where
  tracking : Bool
  /-- The measurements that were dropped because tracking was off. -/
  skipped : Nat
  /-- The sampling decisions made so far. -/
  turn : Nat
  requests : Labelled
  scenarios : Labelled
  steps : Labelled
  throughput : Throughput
  totals : Totals
  heard : Option (List Event)

namespace Recorder

def create (maxLabels : Nat) (listening : Bool) (now : Int) : Recorder :=
  { tracking := true
    skipped := 0
    turn := 0
    requests := .ofCap (utf8 "request") maxLabels
    scenarios := .ofCap (utf8 "scenario") maxLabels
    steps := .ofCap (utf8 "step") maxLabels
    throughput := .ofTime now
    totals := .zero
    heard := if listening then some [] else none }

def tracker (r : Recorder) : Tracker → Labelled
  | .request => r.requests
  | .scenario => r.scenarios
  | .step => r.steps

def setTracker (r : Recorder) (t : Tracker) (l : Labelled) : Recorder :=
  match t with
  | .request => { r with requests := l }
  | .scenario => { r with scenarios := l }
  | .step => { r with steps := l }

def keep (r : Recorder) (t : Tracker) (label : Bytes) (ms : Float) : Recorder × List Notice :=
  let (l, lines) := (r.tracker t).recordMs label ms
  (r.setTracker t l, lines.map Notice.warning)

/-- Decide whether the next measurement is kept, at `percent` of a hundred: of every hundred
decisions the first ones are yes. -/
def sample (r : Recorder) (percent : Nat) : Recorder × Bool :=
  if 100 ≤ percent then (r, true)
  else ({ r with turn := r.turn + 1 }, decide (r.turn % 100 < percent))

def skip (r : Recorder) : Recorder := { r with skipped := r.skipped + 1 }

/-- Measure a latency: skipped while tracking is off, else kept if it is sampled. -/
def measure (r : Recorder) (percent : Nat) (t : Tracker) (label : Bytes) (ms : Float) :
    Recorder × List Notice :=
  if r.tracking then
    match r.sample percent with
    | (r, true) => r.keep t label ms
    | (r, false) => (r, [])
  else (r.skip, [])

def disableTracking (r : Recorder) : Recorder := { r with tracking := false }

def setTracking (r : Recorder) (on : Bool) : Recorder := { r with tracking := on }

def rotate (r : Recorder) : Recorder :=
  { r with
    requests := r.requests.rotate
    scenarios := r.scenarios.rotate
    steps := r.steps.rotate }

def countUnit (r : Recorder) (now : Int) (label : Bytes) (ms : Double) : Recorder :=
  { r with throughput := r.throughput.recordMs now label ms }

def resetThroughput (r : Recorder) (now : Int) : Recorder :=
  { r with throughput := .ofTime now }

def hear (r : Recorder) (e : Event) : Recorder := { r with heard := r.heard.map (e :: ·) }

def addRequest (r : Recorder) (o : RequestOutcome) : Recorder :=
  { r with totals := r.totals.addRequest o }.hear (.request o)

def addScenario (r : Recorder) (o : ScenarioOutcome) : Recorder :=
  { r with totals := r.totals.addScenario o }.hear (.scenario o)

end Recorder

end LoadGenerator.Metrics
