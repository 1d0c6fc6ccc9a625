import LoadGenerator.Report.Notice
import LoadGenerator.Scenario.Execute

namespace LoadGenerator

open Http

structure Script (α : Type) where
  scenario : Scenario α
  baseUrl : Bytes
  timeoutMs : Int
  calendar : Int
  vars : Variables
  limit : Option Int
  client : Client
  random : Nat → Nat

structure Rehearsal where
  now : Int
  jar : CookieJar
  sent : Nat
  dealt : Nat
  notices : List Notice

structure Performance where
  result : ScenarioResult
  requests : List (Int × Request)
  vars : Variables
  jar : CookieJar

namespace Rehearsal

def start (jar : CookieJar) : Rehearsal := ⟨0, jar, 0, 0, []⟩

variable {α : Type}

def row (t : Script α) (r : Rehearsal) : Row :=
  (t.scenario.table.map (·.deal r.dealt)).getD []

def execution (t : Script α) (r : Rehearsal) : Execution :=
  ⟨t.scenario.name, t.baseUrl, t.timeoutMs, t.calendar, r.now, t.limit.map (r.now + ·)⟩

/-- Carry an execution through; `requests` are those sent so far, the newest first. A client that
breaks down ends it. -/
def finish (t : Script α) (x : Execution) (d : Execution.Demand) (requests : List (Int × Request))
    (r : Rehearsal) : Except Bytes (Performance × Rehearsal) :=
  match d with
  | .finished verdict p =>
    .ok (⟨x.result verdict p r.now, requests.reverse, p.vars, p.jar⟩, { r with jar := p.jar })
  | .pause ms p =>
    let now := max r.now (Execution.wakeTime r.now ms)
    finish t x (x.next p now) requests { r with now }
  | .send request step p =>
    let answer := t.client r.sent request
    match answer.reply with
    | .error message => .error message
    | .ok reply =>
      let now := r.now + answer.latency
      let resumed := x.resume p step reply r.now now (t.random r.sent)
      finish t x resumed.1 ((r.now, request) :: requests)
        { r with now, sent := r.sent + 1, notices := r.notices ++ resumed.2.map Notice.warning }
termination_by d.rank
decreasing_by
  · exact Execution.rank_next_lt x p _
  · exact Execution.rank_resume_lt x p ..

def perform (t : Script α) (r : Rehearsal) : Except Bytes (Performance × Rehearsal) :=
  let x := r.execution t
  finish t x (x.start t.scenario.steps (t.vars.load (r.row t)) r.jar) []
    { r with dealt := r.dealt + 1 }

def performMany (t : Script α) : Nat → Rehearsal → Except Bytes (List Performance × Rehearsal)
  | 0, r => .ok ([], r)
  | n + 1, r => do
    let (p, r) ← perform t r
    let (ps, r) ← performMany t n r
    .ok (p :: ps, r)

end Rehearsal

end LoadGenerator
