import LoadGenerator.Proofs.Metrics.Ledger
import LoadGenerator.Run.Account

namespace LoadGenerator.Run

open Http Metrics

/-- Errors of a kind that a worker can tell apart. -/
def Known (e : TransportError) : Prop := e.kind.number < Account.kinds

theorem known_of_isNamed {e : TransportError} (h : e.kind.isNamed = true) : Known e := by
  unfold Known
  cases hkind : e.kind with
  | unlisted beyond =>
    rw [hkind] at h
    cases h
  | _ => decide

def KnownReply (reply : Reply) : Prop := ∀ e, reply = .error e → Known e

def KnownStep (r : StepResult) : Prop := ∀ e ∈ r.transportError, Known e

namespace Work

/-- A unit in which something was sent, and all errors are known. -/
def Sound : Work → Prop
  | .bare _ reply _ => KnownReply reply
  | .scenario r => ∀ step ∈ r.steps, KnownStep step
  | .nothing => False

/-- The latencies that are measured: that of a bare request, and those of all steps and of an
execution that was not cut short. -/
def measurements : Work → List Measurement
  | .bare label _ ms => [⟨.request, label, ms⟩]
  | .scenario r =>
    r.steps.map (fun step => ⟨.step, stepLabel r.name step.name, step.elapsedMs⟩) ++
      if r.interrupted then [] else [⟨.scenario, r.name, r.totalMs⟩]
  | .nothing => []

def outcomes : Work → List RequestOutcome
  | .bare label reply _ => [bareOutcome label reply]
  | .scenario r => r.steps.map fun step => stepOutcome (stepLabel r.name step.name) step
  | .nothing => []

def results : Work → List ScenarioOutcome
  | .scenario r => [⟨r.name, r.success, r.interrupted⟩]
  | _ => []

def bare? : Work → Option RequestOutcome
  | .bare label reply _ => some (bareOutcome label reply)
  | _ => none

def execution? : Work → Option ScenarioResult
  | .scenario r => some r
  | _ => none

end Work

def bares (ws : List Work) : List RequestOutcome := ws.filterMap Work.bare?

def executions (ws : List Work) : List ScenarioResult := ws.filterMap Work.execution?

section

variable {a : Account}

theorem andThen_eq (ha : a.trouble = none) (f : Account → Account) : a.andThen f = f a := by
  rw [Account.andThen, ha]
  rfl

theorem report_eq (worker : Nat) {e : TransportError} (he : Known e) :
    (a.report worker e).trouble = a.trouble ∧ (a.report worker e).recorder = a.recorder := by
  rw [Account.report]
  rw [if_neg (Nat.not_le.mpr he)]
  split <;> exact ⟨rfl, rfl⟩

theorem reportReply_eq (worker : Nat) {reply : Reply} (hr : KnownReply reply) :
    (a.reportReply worker reply).trouble = a.trouble ∧
      (a.reportReply worker reply).recorder = a.recorder := by
  cases reply with
  | ok response => exact ⟨rfl, rfl⟩
  | error e => exact report_eq worker (hr e rfl)

theorem ofStep_eq (ha : a.trouble = none) (percent worker : Nat) (scenario : Bytes)
    {step : StepResult} (hs : KnownStep step) :
    (Account.ofStep percent worker scenario a step).trouble = none ∧
      (Account.ofStep percent worker scenario a step).recorder =
        ((a.recorder.measure percent .step (Work.stepLabel scenario step.name)
          step.elapsedMs).1.addRequest
            (Work.stepOutcome (Work.stepLabel scenario step.name) step)) := by
  rw [Account.ofStep, andThen_eq ha]
  dsimp only
  cases he : step.transportError with
  | none => exact ⟨ha, rfl⟩
  | some e =>
    obtain ⟨ht, hr⟩ := report_eq worker (hs e he)
    exact ⟨ht.trans ha, hr⟩

theorem trouble_ofSteps (percent worker : Nat) (scenario : Bytes) {steps : List StepResult}
    (hs : ∀ step ∈ steps, KnownStep step) (ha : a.trouble = none) :
    (steps.foldl (Account.ofStep percent worker scenario) a).trouble = none := by
  induction steps generalizing a with
  | nil => exact ha
  | cons step steps ih =>
    obtain ⟨hstep, hsteps⟩ := List.forall_mem_cons.mp hs
    exact ih hsteps (ofStep_eq ha percent worker scenario hstep).1

theorem ofBare_eq (ha : a.trouble = none) (now : Int) (percent worker : Nat) (label : Bytes)
    {reply : Reply} (hr : KnownReply reply) (ms : Float) :
    (a.ofBare now percent worker label reply ms).trouble = none ∧
      (a.ofBare now percent worker label reply ms).recorder =
        (((a.recorder.countUnit now label (.ofFloat ms)).measure percent .request label
          ms).1.addRequest (Work.bareOutcome label reply)) := by
  unfold Account.ofBare
  dsimp only
  generalize hm : (a.change (·.countUnit now label (.ofFloat ms))).measure percent .request label
    ms = measured
  have hmt : measured.trouble = none := hm ▸ ha
  obtain ⟨ht, hrec⟩ := reportReply_eq (a := measured) worker hr
  rw [andThen_eq (ht.trans hmt)]
  refine ⟨ht.trans hmt, ?_⟩
  rw [Account.change, hrec, ← hm]
  rfl

theorem trouble_ofWork (ha : a.trouble = none) (now : Int) (percent worker : Nat) {work : Work}
    (hw : work.Sound) : (a.ofWork now percent worker work).trouble = none := by
  cases work with
  | bare label reply ms => exact (ofBare_eq ha now percent worker label hw ms).1
  | scenario r =>
    have hsteps := trouble_ofSteps percent worker r.name hw ha
    rw [Account.ofWork, Account.ofScenario, andThen_eq hsteps]
    dsimp only
    split <;> exact hsteps
  | nothing => exact hw.elim

end

section

variable {r₀ : Recorder} {a : Account} {log : List (Measurement × Fate)} {units : Nat}
  {outcomes : List RequestOutcome} {results : List ScenarioOutcome}

theorem ledger_ofSteps (percent worker : Nat) (scenario : Bytes) {steps : List StepResult}
    (hs : ∀ step ∈ steps, KnownStep step) (ha : a.trouble = none)
    (h : Ledger r₀ a.recorder log units outcomes results) :
    ∃ log', log'.map (·.1) = steps.map (fun step =>
        (⟨.step, Work.stepLabel scenario step.name, step.elapsedMs⟩ : Measurement)) ∧
      Ledger r₀ (steps.foldl (Account.ofStep percent worker scenario) a).recorder (log ++ log') units
        (outcomes ++ steps.map fun step =>
          Work.stepOutcome (Work.stepLabel scenario step.name) step) results := by
  induction steps generalizing a log outcomes with
  | nil => exact ⟨[], rfl, by simpa using h⟩
  | cons step steps ih =>
    obtain ⟨hstep, hsteps⟩ := List.forall_mem_cons.mp hs
    obtain ⟨ht, hr⟩ := ofStep_eq ha percent worker scenario hstep
    obtain ⟨fate, hm⟩ :=
      h.measure percent .step (Work.stepLabel scenario step.name) step.elapsedMs
    have h' := hm.addRequest (Work.stepOutcome (Work.stepLabel scenario step.name) step)
    rw [← hr] at h'
    obtain ⟨log', hlog, hb⟩ := ih hsteps ht h'
    refine ⟨(⟨.step, Work.stepLabel scenario step.name, step.elapsedMs⟩, fate) :: log', ?_, ?_⟩
    · rw [List.map_cons, List.map_cons, hlog]
    · rw [List.foldl_cons, List.map_cons, List.append_cons log, List.append_cons outcomes]
      exact hb

theorem ledger_ofScenario (ha : a.trouble = none) (h : Ledger r₀ a.recorder log units outcomes results)
    (now : Int) (percent worker : Nat) {r : ScenarioResult} (hr : (Work.scenario r).Sound) :
    ∃ log', log'.map (·.1) = (Work.scenario r).measurements ∧
      Ledger r₀ (a.ofScenario now percent worker r).recorder (log ++ log') (units + 1)
        (outcomes ++ (Work.scenario r).outcomes) (results ++ (Work.scenario r).results) := by
  obtain ⟨log', hlog, hb⟩ := ledger_ofSteps percent worker r.name hr ha h
  rw [Account.ofScenario, andThen_eq (trouble_ofSteps percent worker r.name hr ha)]
  dsimp only
  have hunit := hb.countUnit now r.name (.ofFloat r.totalMs)
  by_cases hi : r.interrupted = true
  · rw [if_pos hi]
    refine ⟨log', ?_, hunit.addScenario _⟩
    simp [Work.measurements, hi, hlog]
  · rw [if_neg hi]
    obtain ⟨fate, hm⟩ := hunit.measure percent .scenario r.name r.totalMs
    refine ⟨log' ++ [(⟨.scenario, r.name, r.totalMs⟩, fate)], ?_, ?_⟩
    · simp [Work.measurements, hi, hlog]
    · rw [← List.append_assoc]
      exact hm.addScenario _

theorem ledger_ofWork (ha : a.trouble = none) (h : Ledger r₀ a.recorder log units outcomes results)
    (now : Int) (percent worker : Nat) {work : Work} (hw : work.Sound) :
    ∃ log', log'.map (·.1) = work.measurements ∧
      Ledger r₀ (a.ofWork now percent worker work).recorder (log ++ log') (units + 1)
        (outcomes ++ work.outcomes) (results ++ work.results) := by
  cases work with
  | bare label reply ms =>
    obtain ⟨fate, hm⟩ :=
      (h.countUnit now label (.ofFloat ms)).measure percent .request label ms
    refine ⟨[(⟨.request, label, ms⟩, fate)], rfl, ?_⟩
    rw [Account.ofWork, (ofBare_eq ha now percent worker label hw ms).2]
    simp only [Work.results, List.append_nil]
    exact hm.addRequest _
  | scenario r => exact ledger_ofScenario ha h now percent worker hw
  | nothing => exact hw.elim

end

section

variable {ws : List Work}

@[simp] theorem bares_bare (label : Bytes) (reply : Reply) (ms : Float) :
    bares (.bare label reply ms :: ws) = Work.bareOutcome label reply :: bares ws := rfl

@[simp] theorem bares_scenario (r : ScenarioResult) : bares (.scenario r :: ws) = bares ws := rfl

@[simp] theorem bares_nothing : bares (.nothing :: ws) = bares ws := rfl

@[simp] theorem executions_bare (label : Bytes) (reply : Reply) (ms : Float) :
    executions (.bare label reply ms :: ws) = executions ws := rfl

@[simp] theorem executions_scenario (r : ScenarioResult) :
    executions (.scenario r :: ws) = r :: executions ws := rfl

@[simp] theorem executions_nothing : executions (.nothing :: ws) = executions ws := rfl

theorem length_eq_add (h : ∀ work ∈ ws, work.Sound) :
    ws.length = (executions ws).length + (bares ws).length := by
  induction ws with
  | nil => rfl
  | cons work ws ih =>
    obtain ⟨hw, hws⟩ := List.forall_mem_cons.mp h
    have ih := ih hws
    cases work with
    | bare label reply ms => simp [ih]; omega
    | scenario r => simp [ih]; omega
    | nothing => exact hw.elim

theorem length_outcomes (ws : List Work) : (ws.flatMap Work.outcomes).length =
    (bares ws).length + ((executions ws).map (·.steps.length)).sum := by
  induction ws with
  | nil => rfl
  | cons work ws ih =>
    rw [List.flatMap_cons, List.length_append, ih]
    cases work with
    | bare label reply ms => simp [Work.outcomes]; omega
    | scenario r => simp [Work.outcomes]; omega
    | nothing => simp [Work.outcomes]

theorem length_results (ws : List Work) :
    (ws.flatMap Work.results).length = (executions ws).length := by
  induction ws with
  | nil => rfl
  | cons work ws ih =>
    rw [List.flatMap_cons, List.length_append, ih]
    cases work with
    | bare label reply ms => simp [Work.results]
    | scenario r => simp [Work.results]; omega
    | nothing => simp [Work.results]

theorem countP_not_ok (h : ∀ work ∈ ws, work.Sound) : ws.countP (!·.ok) =
    (ws.flatMap Work.results).countP (fun o => !o.success && !o.interrupted) +
      (bares ws).countP (·.category.isSome) := by
  induction ws with
  | nil => rfl
  | cons work ws ih =>
    obtain ⟨hw, hws⟩ := List.forall_mem_cons.mp h
    rw [List.countP_cons, ih hws, List.flatMap_cons, List.countP_append]
    cases work with
    | bare label reply ms => simp [Work.ok, Work.results, List.countP_cons]; omega
    | scenario r => simp [Work.ok, Work.results, List.countP_cons]; omega
    | nothing => exact hw.elim

end

end LoadGenerator.Run
