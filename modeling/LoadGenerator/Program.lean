import LoadGenerator.CommandLine
import LoadGenerator.Plan.Watcher
import LoadGenerator.Report.Document
import LoadGenerator.Report.Text
import LoadGenerator.Run.Machine

namespace LoadGenerator

open Http Metrics

namespace Program

structure World (α : Type) where
  name : Bytes
  files : Files
  client : Client
  closing : Option Bytes
  random : Nat → Nat
  calendar : Int
  threads : Nat
  number : α → Json

structure Ending where
  status : Nat
  files : Files
  requests : List (Int × Request)
  closings : Nat
  notices : List Notice

variable {α : Type} [Scalar α]

def early (w : World α) (status : Nat) (notices : List Notice) : Ending :=
  ⟨status, w.files, [], 0, notices⟩

def configTrouble (message : Bytes) : Notice := .warning (utf8 "[Config] " ++ message)

def opening (p : Plan α) : Notice :=
  .info (utf8 "[LoadCurve] Target " ++ p.baseUrl ++ utf8 ", " ++ Text.ofNat p.workers ++
    utf8 " workers, " ++ p.load.describe ++ utf8 ", " ++ Scalar.text p.duration ++ utf8 " s")

def watcherOpening (w : World α) (o : Options) (p : Plan α) : List Notice :=
  match o.watch, o.plan with
  | true, some path => (Watcher.create w.files path 1000 p).opening w.files
  | _, _ => []

def setting (w : World α) (o : Options) : Run.Setting α :=
  { client := w.client
    closing := w.closing
    memory := some (Memory.ofFiles w.files)
    news := []
    random := w.random
    calendar := w.calendar
    threads := if o.threads = 0 then w.threads else o.threads }

def aborted (message : Bytes) : Notice := .warning (utf8 "[LoadCurve] Run aborted: " ++ message)

def notWritten (path : Bytes) : Notice :=
  .warning (utf8 "[LoadCurve] Failed to write " ++ path ++ utf8 ": Permission denied")

def written (path : Bytes) : Notice :=
  .info (utf8 "[LoadCurve] JSON report written to " ++ path)

def report (w : World α) (o : Options) (r : Run.Outcome α) (notices : List Notice) : Ending :=
  let lines := Report.lines r.plan r.summary r.recorder r.endedAt
  let notices := notices ++ lines.map Notice.info
  match o.jsonReport with
  | none => ⟨0, w.files, r.requests, r.closings, notices⟩
  | some path =>
    let document := Report.ofRun w.number r.plan r.summary r.recorder r.endedAt
    match w.files.write? path ⟨Report.fileText document, 0⟩ with
    | none => ⟨1, w.files, r.requests, r.closings, notices ++ [notWritten path]⟩
    | some files => ⟨0, files, r.requests, r.closings, notices ++ [written path]⟩

def runPlan (w : World α) (o : Options) (l : LoadedPlan α) (notices : List Notice) : Ending :=
  let recorder := (Recorder.create Labelled.usualCap false 0).setTracking l.plan.percentiles
  let r := Run.run (setting w o) (.ofPlan l.plan) recorder 0
  let notices := notices ++ l.warnings.map Watcher.warning ++ [opening l.plan] ++
    watcherOpening w o l.plan ++ r.notices
  match r.trouble with
  | some message => ⟨1, w.files, r.requests, r.closings, notices ++ [aborted message]⟩
  | none => report w o r notices

def runOptions (w : World α) (o : Options) : Ending :=
  if o.watch && o.plan.isNone then early w 1 [configTrouble (utf8 "--watch requires --plan")]
  else
    match PlanLoader.run (o.load w.files) with
    | (.error e, notices) => early w 1 (notices ++ [configTrouble e.text])
    | (.ok l, notices) => runPlan w o l notices

/-- Run the program. A number that cannot be read ends it without a status. -/
def run (w : World α) (args : List Bytes) : Except CommandLine.Failure Ending :=
  match CommandLine.parse args with
  | .ok .help => .ok (early w 0 (CommandLine.usage w.name))
  | .ok (.run o) => .ok (runOptions w o)
  | .error (.unknown arg) =>
    .ok (early w 1 (CommandLine.complaint arg :: CommandLine.usage w.name))
  | .error e => .error e

end Program

end LoadGenerator
