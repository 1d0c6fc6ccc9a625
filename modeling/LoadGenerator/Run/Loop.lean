import LoadGenerator.Load.Pacing
import LoadGenerator.Plan.Duration
import LoadGenerator.Run.State

namespace LoadGenerator.Run

open Http

variable {α : Type} [Scalar α]

namespace State

/-- Let worker `i` go to the head of its loop at `time`, or at once if that is not to come. -/
def pauseUntil (s : State α) (i : Nat) (w : Worker α) (time : Int) : State α :=
  let s := s.setWorker i { w with phase := .pausing }
  if time ≤ s.now then s.hurry (.resume (.worker i)) else s.arm time (.worker i)

def stopped (message : Bytes) : Notice :=
  .warning (utf8 "[Runner] Worker stopped: " ++ message)

/-- Worker `i` breaks down. What it has counted is lost. -/
def stop (s : State α) (i : Nat) (w : Worker α) (message : Bytes) : State α :=
  (s.setWorker i { w with phase := .stopped }).say [stopped message]

/-- A unit of work is over. The next one is due after the pause, counted from when this one was
due; but what is late is not caught up with. -/
def finishUnit (c : Course α) (s : State α) (i : Nat) (w : Worker α) (job : Job α) (work : Work) :
    State α :=
  let w := w.count work.ok
  let s := s.note (.ended i s.now job work)
  if job.delayMs = 0 then
    (s.setWorker i { w with phase := .pausing, nextFire := s.now }).post (.resume (.worker i))
  else
    let next := max (w.nextFire + job.delayMs * Clock.perMilli) s.now
    s.pauseUntil i { w with nextFire := next } (min next c.deadline)

def send (c : Course α) (s : State α) (i : Nat) (w : Worker α) (job : Job α) (request : Request)
    (purpose : Purpose) : State α :=
  let n := s.sent
  let sentAt := s.now
  let s := ({ s with sent := n + 1 }.note (.sent i sentAt job.edition request)).publishAll
    (c.setting.newsAt (.request n))
  let answer := c.setting.client n request
  (s.setWorker i { w with phase := .sending job purpose sentAt answer }).arm
    (sentAt + answer.latency) (.worker i)

def complete (c : Course α) (s : State α) (i : Nat) (w : Worker α) (job : Job α) (work : Work) :
    State α :=
  let a := (Account.ofRecorder s.recorder w.reported).ofWork s.now job.edition.plan.sampling i work
  let s := { s with recorder := a.recorder }.say a.notices
  let w := { w with reported := a.reported }
  match a.trouble with
  | some message => s.stop i w message
  | none => s.finishUnit c i w job work

def carryOut (c : Course α) (s : State α) (i : Nat) (w : Worker α) (job : Job α) : Act → State α
  | .send request purpose => s.send c i w job request purpose
  | .think ms x p =>
    (s.setWorker i { w with phase := .thinking job x p }).arm (Execution.wakeTime s.now ms)
      (.worker i)
  | .complete jar work => s.complete c i { w with jar } job work
  | .stop message => s.stop i w message

def receive (c : Course α) (s : State α) (w : Worker α) (purpose : Purpose) (sentAt : Int)
    (answer : Answer) : Act × State α :=
  match answer.reply, purpose with
  | .error message, _ => (.stop message, s)
  | .ok reply, .bare label =>
    (.complete w.jar (.bare label reply (millisBetween sentAt s.now)), s)
  | .ok reply, .step x p step =>
    let (random, s) := s.draw c
    let (demand, lines) := x.resume p step reply sentAt s.now random
    (.ofDemand x s.now demand, s.say (lines.map Notice.warning))

def bareLabel (t : RequestTemplate) : Bytes := t.method ++ utf8 " " ++ t.path

def beginUnit (c : Course α) (s : State α) (w : Worker α) (e : Edition α) : Act × State α :=
  match e.plan.selector, e.plan.request with
  | some selector, _ =>
    let (random, s) := s.draw c
    let point : α := Selector.point random
    let scenario := selector.selectAt point
    let (row, s) := s.deal (e.version, selector.indexAt point) scenario.table
    let x : Execution :=
      ⟨scenario.name, e.plan.baseUrl, e.plan.timeoutMs, c.setting.calendar, s.now, some c.deadline⟩
    (.ofDemand x s.now (x.start scenario.steps (Variables.load [] row) w.jar), s)
  | none, some t => (.send (t.plain e.plan.baseUrl e.plan.timeoutMs) (.bare (bareLabel t)), s)
  | none, none => (.complete w.jar .nothing, s)

def pickedUp (e : Edition α) : Notice :=
  .info (utf8 "[Worker 0] Picked up plan v" ++ Text.ofNat e.version ++ utf8 ": " ++
    e.plan.load.describe)

/-- The plan with which worker `i` goes on: the one it holds if it is still the newest. The first
worker tells when it changes. -/
def refresh (s : State α) (i : Nat) (held : Option (Edition α)) : Edition α × List Notice :=
  match held with
  | none => (s.edition, [])
  | some e =>
    if e.version = s.channel.version then (e, [])
    else (s.edition, if i = 0 then [pickedUp s.edition] else [])

/-- Wait for an hour, or until the end of the run or a new plan. -/
def park (c : Course α) (s : State α) (i : Nat) (w : Worker α) : State α :=
  (s.setWorker i { w with phase := .parked, parks := w.parks + 1 }).arm
    (min (s.now + Pacing.longestMs * Clock.perMilli) c.deadline) (.worker i)

def rate (c : Course α) (s : State α) (e : Edition α) : Rate α :=
  e.plan.load.rate (Duration.ofNanos (s.now - c.startedAt))

def turn (c : Course α) (s : State α) (i : Nat) (w : Worker α) : State α :=
  if s.now < c.deadline then
    let (e, notices) := s.refresh i w.edition
    let w := { w with edition := some e }
    let delay := Pacing.delay? (s.rate c e) c.workers
    let s := (s.say notices).note (.paced i s.now e delay)
    match delay with
    | none => s.park c i w
    | some delayMs =>
      let (act, s) := s.beginUnit c w e
      s.carryOut c i w ⟨e, delayMs⟩ act
  else s.setWorker i { w with phase := .finished }

def firstFire (c : Course α) (i : Nat) (e : Edition α) : Int :=
  match Pacing.delay? (e.plan.load.rate Scalar.zero) c.workers with
  | none => c.startedAt
  | some delayMs => c.startedAt + Pacing.stagger i c.workers delayMs * Clock.perMilli

def beginWork (c : Course α) (s : State α) (i : Nat) (w : Worker α) : State α :=
  let e := s.edition
  let first := firstFire c i e
  let s := s.note (.begun i s.now e)
  s.pauseUntil i { w with edition := some e, nextFire := first } (min first c.deadline)

def resumeWorker (c : Course α) (s : State α) (i : Nat) (w : Worker α) : State α :=
  match w.phase with
  | .fresh => s.beginWork c i w
  | .pausing => s.turn c i w
  | .parked => s.turn c i { w with phase := .pausing, nextFire := s.now }
  | .sending job purpose sentAt answer =>
    let (act, s) := s.receive c w purpose sentAt answer
    s.carryOut c i w job act
  | .thinking job x p => s.carryOut c i w job (.ofDemand x s.now (x.next p s.now))
  | .finished | .stopped => s

end State

end LoadGenerator.Run
