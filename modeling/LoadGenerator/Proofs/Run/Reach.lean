import LoadGenerator.Run.Machine
import LoadGenerator.Scalar.Rational

namespace LoadGenerator.Run

variable {α : Type} [Scalar α]

/-- The states that the run of a channel's plan passes through. -/
inductive Reachable (c : Course α) (channel : Channel (Plan α) Unit) (r : Metrics.Recorder) :
    State α → Prop
  | start : Reachable c channel r (c.start channel r)
  | step {s s' : State α} (h : Reachable c channel r s) (hs : s.step c = some s') :
      Reachable c channel r s'

variable {c : Course α} {channel : Channel (Plan α) Unit} {r : Metrics.Recorder} {s : State α}

theorem Reachable.advance (h : Reachable c channel r s) (n : Nat) :
    Reachable c channel r (s.advance c n) := by
  induction n generalizing s with
  | zero => exact h
  | succ n ih =>
    rw [State.advance]
    cases hs : s.step c with
    | none => exact h
    | some s' => exact ih (h.step hs)

def stateAt (setting : Setting α) (channel : Channel (Plan α) Unit) (r : Metrics.Recorder)
    (now : Int) (n : Nat) : State α :=
  ((Course.ofPlan setting channel.current now).start channel r).advance
    (.ofPlan setting channel.current now) n

theorem reachable_stateAt (setting : Setting α) (channel : Channel (Plan α) Unit)
    (r : Metrics.Recorder) (now : Int) (n : Nat) :
    Reachable (.ofPlan setting channel.current now) channel r (stateAt setting channel r now n) :=
  Reachable.start.advance n

theorem exists_reachable_run (setting : Setting α) (channel : Channel (Plan α) Unit)
    (r : Metrics.Recorder) (now : Int) (h : refusal? channel.current.workers = none) :
    ∃ s, Reachable (Course.ofPlan setting channel.current now) channel r s ∧
      run setting channel r now = s.outcome (Course.ofPlan setting channel.current now) := by
  refine ⟨_, reachable_stateAt setting channel r now
    ((Course.ofPlan setting channel.current now).horizon channel.current), ?_⟩
  simp only [run, h, stateAt]

def Setting.ofClient (client : Http.Client) : Setting α :=
  ⟨client, none, none, [], fun _ => 0, 0, 1⟩

def steady (latency : Nat) : Http.Client := fun _ _ => ⟨latency, .ok (.ok ⟨200, [], []⟩)⟩

def planOf (workers : Nat) (seconds : α) (load : LoadModel α) : Plan α :=
  { Plan.usual with
    workers := workers
    duration := seconds
    percentiles := false
    load := load
    request := some ⟨[], [], none, []⟩ }

def visits : Plan Rat :=
  let step (pause : Option ThinkTime) : Step := ⟨[], ⟨[], [], none, []⟩, [], [], pause, none⟩
  { planOf 2 1 (.constant 20) with
    selector := some ⟨[⟨[], 1, [step (some (.fixed 30)), step none], none⟩], [1], 1, by simp⟩ }

end LoadGenerator.Run
