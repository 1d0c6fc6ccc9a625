import LoadGenerator.Guard.Basic
import LoadGenerator.Guard.Memory
import LoadGenerator.Number.Clock

namespace LoadGenerator

open Metrics Memory

structure GuardWatch (α : Type) where
  config : GuardConfig α
  source : Option Memory.Source
  state : GuardState α
  readAt : List Int

namespace GuardWatch

variable {α : Type} [Scalar α]

def create (config : GuardConfig α) (source : Option Memory.Source) : GuardWatch α :=
  ⟨config, source, .initial, []⟩

def begin (g : GuardWatch α) : GuardWatch α × List Notice :=
  let (state, notices) := Guard.begin g.config (g.source.bind (·.limit)) g.state
  ({ g with state := state }, notices)

def ensureBegun (g : GuardWatch α) : GuardWatch α × List Notice :=
  if g.state.active then (g, []) else g.begin

def read? (g : GuardWatch α) (now : Int) : Option (Reading × GuardWatch α) :=
  match g.state.active, g.source with
  | true, some source =>
    some (source.usage g.readAt.length, { g with readAt := now :: g.readAt })
  | _, _ => none

def evaluate (g : GuardWatch α) (now : Int) (usage : α) (r : Recorder) :
    GuardWatch α × Recorder × GuardAction × List Notice :=
  let (state, r, a, notices) := Guard.evaluate g.config now usage g.state r
  ({ g with state := state }, r, a, notices)

def take (g : GuardWatch α) (now : Int) (reading : Reading) (r : Recorder) :
    GuardWatch α × Recorder × Option GuardAction × List Notice :=
  match reading with
  | .bytes usage =>
    let (state, r, a, notices) := Guard.tick g.config now usage g.state r
    ({ g with state := state }, r, a, notices)
  | _ => (g, r, none, [])

def tick (g : GuardWatch α) (now : Int) (r : Recorder) :
    GuardWatch α × Recorder × Option GuardAction × List Notice :=
  match g.read? now with
  | none => (g, r, none, [])
  | some (reading, g) => g.take now reading r

def stop (g : GuardWatch α) : GuardWatch α := { g with state := { g.state with stopped := true } }

def goesOn (g : GuardWatch α) (now deadline : Int) : Bool :=
  !g.state.stopped && decide (now < deadline)

def nextWake (g : GuardWatch α) (now deadline : Int) : Int :=
  min (Clock.word (now + Clock.ofMillis g.config.intervalMs)) deadline

def breaksDown (g : GuardWatch α) (now : Int) : Bool :=
  match g.read? now with
  | some (.broken _, _) => true
  | _ => false

/-- Read until the deadline or until a reading goes wrong, with nothing else going on; also gives
the time of the end. Where the next wake-up is not later than this one, time would not go on. -/
def poll (g : GuardWatch α) (now deadline : Int) (r : Recorder) (notices : List Notice) :
    GuardWatch α × Recorder × Int × List Notice :=
  if g.goesOn now deadline then
    let (g', r, _, more) := g.tick now r
    let next := g.nextWake now deadline
    if now < next ∧ ¬g.breaksDown now then poll g' next deadline r (notices ++ more)
    else (g', r, now, notices ++ more)
  else (g, r, now, notices)
termination_by (deadline - now).toNat
decreasing_by
  have : g.nextWake now deadline ≤ deadline := by
    unfold nextWake
    omega
  omega

def run (g : GuardWatch α) (now deadline : Int) (r : Recorder) :
    GuardWatch α × Recorder × Int × List Notice :=
  let (g, notices) := g.ensureBegun
  if g.state.active then g.poll now deadline r notices else (g, r, now, notices)

end GuardWatch

end LoadGenerator
