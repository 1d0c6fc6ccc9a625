import LoadGenerator.Metrics.Recorder
import LoadGenerator.Scenario.Execute

namespace LoadGenerator.Run

open Http Metrics

inductive Work where
  | bare (label : Bytes) (reply : Reply) (ms : Float)
  | scenario (result : ScenarioResult)
  | nothing

namespace Work

def bareOutcome (label : Bytes) : Reply → RequestOutcome
  | .ok r => ⟨label, some r.status, ErrorCategory.ofStatus? r.status⟩
  | .error e => ⟨label, none, some (ErrorCategory.ofTransport e.kind)⟩

def stepOutcome (label : Bytes) (r : StepResult) : RequestOutcome := ⟨label, r.status, r.category?⟩

def stepLabel (scenario step : Bytes) : Bytes := scenario ++ utf8 ":" ++ step

/-- Whether a unit counts as done well. A scenario that was cut short is no failure. -/
def ok : Work → Bool
  | .bare label reply _ => (bareOutcome label reply).category.isNone
  | .scenario r => r.success || r.interrupted
  | .nothing => false

end Work

/-- What has been recorded so far. Recording ends with the first trouble. -/
structure Account where
  recorder : Recorder
  reported : List TransportKind
  notices : List Notice
  trouble : Option Bytes

namespace Account

def ofRecorder (r : Recorder) (reported : List TransportKind) : Account := ⟨r, reported, [], none⟩

def kinds : Nat := 8

def noRoom (n : Nat) : Bytes :=
  utf8 "bitset::test: __position (which is " ++ Text.ofNat n ++ utf8 ") >= _Nb (which is " ++
    Text.ofNat kinds ++ utf8 ")"

def failureLine (worker : Nat) (e : TransportError) : Bytes :=
  utf8 "[Worker " ++ Text.ofNat worker ++ utf8 "] " ++ e.text ++ utf8 " (further " ++
    utf8 e.kind.label ++ utf8 " errors from this worker are counted, not logged)"

def report (a : Account) (worker : Nat) (e : TransportError) : Account :=
  if kinds ≤ e.kind.number then { a with trouble := some (noRoom e.kind.number) }
  else if a.reported.contains e.kind then a
  else
    { a with
      reported := e.kind :: a.reported
      notices := a.notices ++ [.warning (failureLine worker e)] }

def change (a : Account) (f : Recorder → Recorder) : Account := { a with recorder := f a.recorder }

def measure (a : Account) (percent : Nat) (t : Tracker) (label : Bytes) (ms : Float) : Account :=
  let (r, notices) := a.recorder.measure percent t label ms
  { a with recorder := r, notices := a.notices ++ notices }

def andThen (a : Account) (f : Account → Account) : Account := if a.trouble.isSome then a else f a

def reportReply (a : Account) (worker : Nat) : Reply → Account
  | .ok _ => a
  | .error e => a.report worker e

def ofBare (a : Account) (now : Int) (percent worker : Nat) (label : Bytes) (reply : Reply)
    (ms : Float) : Account :=
  let measured := (a.change (·.countUnit now label (.ofFloat ms))).measure percent .request
    label ms
  (measured.reportReply worker reply).andThen fun a =>
    a.change (·.addRequest (Work.bareOutcome label reply))

def ofStep (percent worker : Nat) (scenario : Bytes) (a : Account) (r : StepResult) : Account :=
  a.andThen fun a =>
    let label := Work.stepLabel scenario r.name
    let counted := (a.measure percent .step label r.elapsedMs).change
      (·.addRequest (Work.stepOutcome label r))
    match r.transportError with
    | none => counted
    | some e => counted.report worker e

def ofScenario (a : Account) (now : Int) (percent worker : Nat) (r : ScenarioResult) : Account :=
  (r.steps.foldl (ofStep percent worker r.name) a).andThen fun a =>
    let a := a.change (·.countUnit now r.name (.ofFloat r.totalMs))
    let a := if r.interrupted then a else a.measure percent .scenario r.name r.totalMs
    a.change (·.addScenario ⟨r.name, r.success, r.interrupted⟩)

def ofWork (a : Account) (now : Int) (percent worker : Nat) : Work → Account
  | .bare label reply ms => a.ofBare now percent worker label reply ms
  | .scenario r => a.ofScenario now percent worker r
  | .nothing => a

end Account

end LoadGenerator.Run
