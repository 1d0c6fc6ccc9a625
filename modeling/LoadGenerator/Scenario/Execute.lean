import LoadGenerator.Http.Category
import LoadGenerator.Http.Client
import LoadGenerator.Scenario.Assert
import LoadGenerator.Scenario.Request

namespace LoadGenerator

open Http

structure StepResult where
  name : Bytes
  success : Bool
  status : Option Nat
  elapsedMs : Float
  transportError : Option TransportError
  passed : Nat
  failures : List AssertionFailure

namespace StepResult

def category? (r : StepResult) : Option ErrorCategory :=
  match r.transportError, r.status with
  | some e, _ => some (ErrorCategory.ofTransport e.kind)
  | none, some status => ErrorCategory.ofStatus? status
  | none, none => some .other

end StepResult

inductive Verdict where
  | success
  | failedAt (step : Nat)
  | interrupted
  deriving DecidableEq, Repr

structure ScenarioResult where
  name : Bytes
  verdict : Verdict
  totalMs : Float
  steps : List StepResult

namespace ScenarioResult

def success (r : ScenarioResult) : Bool := r.verdict == .success

def interrupted (r : ScenarioResult) : Bool := r.verdict == .interrupted

def failedAt? (r : ScenarioResult) : Option Nat :=
  match r.verdict with
  | .failedAt step => some step
  | _ => none

end ScenarioResult

def millisBetween (start stop : Int) : Float := Float.ofInt (stop - start) / 1e6

structure Execution where
  name : Bytes
  baseUrl : Bytes
  timeoutMs : Int
  calendar : Int
  startedAt : Int
  deadline : Option Int

namespace Execution

/-- Where an execution stands between two requests: the steps that are left, and the results of
those that are done, the newest first. -/
structure Progress where
  vars : Variables
  jar : CookieJar
  left : List Step
  done : List StepResult

inductive Demand where
  | send (request : Request) (step : Step) (progress : Progress)
  | pause (ms : Int) (progress : Progress)
  | finished (verdict : Verdict) (progress : Progress)

def request (x : Execution) (step : Step) (p : Progress) : Request :=
  step.request.build x.baseUrl x.timeoutMs (p.vars.substitute x.calendar) p.jar

def isOver (x : Execution) (p : Progress) (now : Int) : Bool :=
  !p.done.isEmpty && x.deadline.any (· ≤ now)

def next (x : Execution) (p : Progress) (now : Int) : Demand :=
  match p.left with
  | [] => .finished .success p
  | step :: left =>
    if x.isOver p now then .finished .interrupted p
    else .send (x.request step p) step { p with left }

def start (x : Execution) (steps : List Step) (vars : Variables) (jar : CookieJar) : Demand :=
  x.next ⟨vars, jar, steps, []⟩ x.startedAt

def failed (step : Step) (e : TransportError) (elapsedMs : Float) : StepResult :=
  ⟨step.name, false, none, elapsedMs, some e, 0, []⟩

def checked (step : Step) (r : Response) (elapsedMs : Float) : StepResult :=
  let report := Assertion.checkAll step.assertions r elapsedMs
  ⟨step.name, report.failures.isEmpty, some r.status, elapsedMs, none, report.passed,
    report.failures⟩

def skipped (step : Step) (f : ExtractionFailure) : Bytes :=
  utf8 "[Scenario] Step '" ++ step.name ++ utf8 "' extraction skipped for '" ++ f.name ++
    utf8 "': " ++ f.text

/-- Take in the reply to a step: the cookies of any response, and the values of one that passed all
assertions. Also gives the lines to be reported. -/
def receive (p : Progress) (step : Step) (reply : Reply) (elapsedMs : Float) :
    Progress × StepResult × List Bytes :=
  match reply with
  | .error e =>
    let result := failed step e elapsedMs
    ({ p with done := result :: p.done }, result, [])
  | .ok r =>
    let result := checked step r elapsedMs
    let jar := p.jar.update r.headers
    if result.success then
      let report := Extraction.runAll step.extractions r p.vars
      (⟨report.vars, jar, p.left, result :: p.done⟩, result,
        report.failures.map (skipped step))
    else (⟨p.vars, jar, p.left, result :: p.done⟩, result, [])

def resume (x : Execution) (p : Progress) (step : Step) (reply : Reply) (sentAt now : Int)
    (random : Nat) : Demand × List Bytes :=
  let (p, result, lines) := receive p step reply (millisBetween sentAt now)
  if !result.success then (.finished (.failedAt (p.done.length - 1)) p, lines)
  else
    match step.thinkTime.map (·.choose random) with
    | some ms => if 0 < ms then (.pause ms p, lines) else (x.next p now, lines)
    | none => (x.next p now, lines)

def wakeTime (now ms : Int) : Int := Clock.word (now + Clock.ofMillis ms)

def result (x : Execution) (verdict : Verdict) (p : Progress) (now : Int) : ScenarioResult :=
  ⟨x.name, verdict, millisBetween x.startedAt now, p.done.reverse⟩

/-- How far an execution is from its end. -/
def Demand.rank : Demand → Nat
  | .send _ _ p => 3 * p.left.length + 2
  | .pause _ p => 3 * p.left.length + 1
  | .finished _ _ => 0

theorem rank_next_lt (x : Execution) (p : Progress) (now : Int) :
    (x.next p now).rank < 3 * p.left.length + 1 := by
  unfold next
  split
  · simp [Demand.rank]
  · next h =>
    split
    · simp [Demand.rank]
    · simp [Demand.rank, h]
      omega

theorem left_receive (p : Progress) (step : Step) (reply : Reply) (ms : Float) :
    (receive p step reply ms).1.left = p.left := by
  unfold receive
  split
  · rfl
  · dsimp only
    split <;> rfl

theorem rank_resume_lt (x : Execution) (p : Progress) (step : Step) (reply : Reply)
    (sentAt now : Int) (random : Nat) :
    (x.resume p step reply sentAt now random).1.rank < 3 * p.left.length + 2 := by
  have hleft := left_receive p step reply (millisBetween sentAt now)
  have hnext := rank_next_lt x (receive p step reply (millisBetween sentAt now)).1 now
  rw [hleft] at hnext
  unfold resume
  dsimp only
  split
  · simp [Demand.rank]
  · split
    · split
      · simp [Demand.rank, hleft]
      · dsimp only
        omega
    · dsimp only
      omega

end Execution

end LoadGenerator
