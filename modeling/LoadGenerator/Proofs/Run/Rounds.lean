import LoadGenerator.Proofs.Metrics.Sampling
import LoadGenerator.Proofs.Run.Balance
import LoadGenerator.Proofs.Run.Shedding
import LoadGenerator.Proofs.Run.Starts
import LoadGenerator.Proofs.Run.Visits
import LoadGenerator.Proofs.Scenario.Outcome

namespace LoadGenerator.Run

open Http Metrics State

variable {α : Type}

/-- The labels of an execution that does all its steps, in the order in which it is measured. -/
def keys (sc : Scenario α) : List (Tracker × Bytes) :=
  sc.steps.map (fun step => (.step, Work.stepLabel sc.name step.name)) ++ [(.scenario, sc.name)]

def measuredAll (ws : List Work) : List Measurement :=
  ws.flatMap fun work => work.measurements.reverse

/-- An execution that has done all its steps without an error. -/
def Work.succeeds : Work → Bool
  | .bare _ _ _ => false
  | .scenario r => r.success
  | .nothing => false

/-- A unit of work is an execution of a scenario, and all of it is measured. -/
structure Work.Repeats (sc : Scenario α) (work : Work) : Prop where
  sound : work.Sound
  keys : work.measurements.map Measurement.key = keys sc

section

variable {sc : Scenario α} {x : Execution} {es : List Exchange} {now : Int} {r : ScenarioResult}

theorem knownStep_of_reports {e : Exchange} {result : StepResult} (h : e.Reports result)
    (hs : result.success = true) : KnownStep result := by
  obtain ⟨response, hreply, -⟩ := h.success.mp hs
  intro err herr
  rw [(h.answered response hreply).2.1] at herr
  cases herr

theorem repeats_of_accounts (h : x.Accounts sc.steps es now r) (hname : r.name = sc.name)
    (hs : r.success = true) : (Work.scenario r).Repeats sc := by
  obtain ⟨hlength, hall⟩ := h.success.mp hs
  constructor
  case sound =>
    intro result hresult
    obtain ⟨k, hk, rfl⟩ := List.getElem_of_mem hresult
    have hreports := h.reports.get (h.reports.length_eq.symm ▸ hk) hk
    exact knownStep_of_reports hreports (hall _ hresult)
  case keys =>
    have hnames : r.steps.map (·.name) = sc.steps.map (·.name) :=
      h.names.eq_of_length (by simpa using hlength)
    have hi : r.interrupted = false := by
      have hone := h.one
      rw [hs] at hone
      cases hi : r.interrupted with
      | false => rfl
      | true => simp [hi] at hone
    have hsteps :=
      congrArg (List.map fun name => (Tracker.step, Work.stepLabel sc.name name)) hnames
    rw [List.map_map, List.map_map] at hsteps
    rw [Work.measurements, hi, List.map_append, List.map_map, hname]
    exact congrArg (· ++ _) hsteps

end

section

variable {percent cap : Nat} {ms : List Measurement} {a : Account}

def stepMeasurement (scenario : Bytes) (step : StepResult) : Measurement :=
  ⟨.step, Work.stepLabel scenario step.name, step.elapsedMs⟩

theorem reverse_measurements (r : ScenarioResult) : (Work.scenario r).measurements.reverse =
    (if r.interrupted then [] else [⟨.scenario, r.name, r.totalMs⟩]) ++
      (r.steps.map (stepMeasurement r.name)).reverse := by
  rw [Work.measurements, List.reverse_append]
  split <;> rfl

theorem sampled_ofSteps (hpercent : percent < 100) (worker : Nat) (scenario : Bytes)
    {steps : List StepResult} (hs : ∀ step ∈ steps, KnownStep step) (ha : a.trouble = none)
    (h : Sampled percent cap ms a.recorder) :
    Sampled percent cap ((steps.map (stepMeasurement scenario)).reverse ++ ms)
      (steps.foldl (Account.ofStep percent worker scenario) a).recorder := by
  induction steps generalizing a ms with
  | nil => exact h
  | cons step steps ih =>
    obtain ⟨hstep, hsteps⟩ := List.forall_mem_cons.mp hs
    obtain ⟨ht, hr⟩ := ofStep_eq ha percent worker scenario hstep
    have hm := h.measure hpercent (stepMeasurement scenario step)
    have hnext : Sampled percent cap (stepMeasurement scenario step :: ms)
        (a.ofStep percent worker scenario step).recorder :=
      hr ▸ hm.of_skips (Recorder.skips_addRequest _ _)
    simpa using ih hsteps ht hnext

theorem sampled_ofScenario (hpercent : percent < 100) (ha : a.trouble = none)
    (h : Sampled percent cap ms a.recorder) (now : Int) (worker : Nat) {r : ScenarioResult}
    (hr : (Work.scenario r).Sound) :
    Sampled percent cap ((Work.scenario r).measurements.reverse ++ ms)
      (a.ofScenario now percent worker r).recorder := by
  have hsteps := sampled_ofSteps hpercent worker r.name hr ha h
  rw [Account.ofScenario, andThen_eq (trouble_ofSteps percent worker r.name hr ha)]
  dsimp only
  have hunit := hsteps.of_skips (Recorder.skips_countUnit _ now r.name (.ofFloat r.totalMs))
  rw [reverse_measurements]
  by_cases hi : r.interrupted = true
  · rw [if_pos hi, if_pos hi]
    exact hunit.of_skips (Recorder.skips_addScenario _ ⟨r.name, r.success, r.interrupted⟩)
  · rw [if_neg hi, if_neg hi]
    have hm := hunit.measure hpercent ⟨.scenario, r.name, r.totalMs⟩
    exact hm.of_skips (Recorder.skips_addScenario _ ⟨r.name, r.success, r.interrupted⟩)

theorem sampled_ofWork (hpercent : percent < 100) (ha : a.trouble = none)
    (h : Sampled percent cap ms a.recorder) (now : Int) (worker : Nat) {work : Work}
    (hw : work.Sound) :
    Sampled percent cap (work.measurements.reverse ++ ms)
      (a.ofWork now percent worker work).recorder := by
  cases work with
  | bare label reply ms' =>
    have hunit := h.of_skips (Recorder.skips_countUnit _ now label (.ofFloat ms'))
    have hm := hunit.measure hpercent ⟨.request, label, ms'⟩
    rw [Account.ofWork, (ofBare_eq ha now percent worker label hw ms').2]
    exact hm.of_skips (Recorder.skips_addRequest _ _)
  | scenario r => exact sampled_ofScenario hpercent ha h now worker hw
  | nothing => exact hw.elim

end

/-- Units of work, the newest first, that all repeat `sc` and have been measured by a recorder. -/
structure Rounds (sc : Scenario α) (percent cap : Nat) (ws : List Work) (r : Recorder) : Prop where
  sampled : Sampled percent cap (measuredAll ws) r
  repeats : ∀ work ∈ ws, work.Repeats sc

section

variable {c : Course α} {k : Session α} {i : Nat} {s s₁ : State α} {w : Worker α} {job : Job α}
  {asked : List Asking} {results : List ScenarioResult} {jar jar' : CookieJar} {now : Int}
  {sc : Scenario α} {plan : Plan α} {cap : Nat} {ws : List Work} {act : Act} {t : Trace α}

theorem mem_scenarios {selector : Selector α} (h : plan.selector = some selector)
    {scenario : Scenario α} (hmem : scenario ∈ selector.scenarios) : scenario ∈ plan.scenarios := by
  rw [Plan.scenarios, h]
  exact hmem

theorem repeats_of_does {work : Work} (hr : k.Recounts c asked results)
    (hd : k.Does c jar job now (.complete jar' work)) (hplan : job.edition.plan.scenarios = [sc])
    (hs : work.succeeds = true) : work.Repeats sc := by
  cases work with
  | bare label reply ms => cases hs
  | nothing => cases hs
  | scenario r =>
    obtain ⟨-, x, verdict, p, ⟨v, hc, hedition, rfl, hv⟩, -, rfl⟩ := hd
    obtain ⟨⟨selector, hselector, hmem, -⟩, -⟩ := hr.current v hc
    have hsc : v.scenario ∈ job.edition.plan.scenarios := hedition ▸ mem_scenarios hselector hmem
    rw [hplan, List.mem_singleton] at hsc
    exact hsc ▸ repeats_of_accounts hv.accounts rfl hs

theorem Rounds.work {a : Account} (ha : a.trouble = none) {percent : Nat} (hpercent : percent < 100)
    (h : Rounds sc percent cap ws a.recorder) (now : Int) (worker : Nat) {work : Work}
    (hw : work.Repeats sc) :
    Rounds sc percent cap (work :: ws) (a.ofWork now percent worker work).recorder where
  sampled := sampled_ofWork hpercent ha h.sampled now worker hw.sound
  repeats := List.forall_mem_cons.mpr ⟨hw, h.repeats⟩

theorem rounds_trace (hplan : job.edition.plan = plan) (hone : plan.scenarios = [sc])
    (hpercent : plan.sampling < 100) (hr : k.Recounts c asked results)
    (hd : k.Does c w.jar job s.now act) (h : Rounds sc plan.sampling cap ws s.recorder)
    (hstop : (act.trace c i s w job).worker.isStopped = false)
    (hs : ∀ work ∈ works (act.trace c i s w job).events, work.succeeds = true) :
    Rounds sc plan.sampling cap (works (act.trace c i s w job).events ++ ws)
      (act.trace c i s w job).recorder := by
  subst hplan
  cases act with
  | send request purpose => exact h
  | think ms x p => exact h
  | stop message => exact h
  | complete jar work =>
    rw [Act.trace] at hstop hs ⊢
    dsimp only at hstop hs ⊢
    cases htrouble : ((Account.ofRecorder s.recorder w.reported).ofWork s.now
      job.edition.plan.sampling i work).trouble with
    | some message =>
      rw [htrouble] at hstop
      cases hstop
    | none =>
      rw [htrouble] at hs
      have hrepeats := repeats_of_does hr hd hone (hs work List.mem_cons_self)
      exact Rounds.work (a := .ofRecorder s.recorder w.reported) rfl hpercent h s.now i hrepeats

theorem job?_trace (act : Act) {job' : Job α}
    (h : (act.trace c i s w job).worker.job? = some job') : job' = job := by
  cases act with
  | send request purpose => exact (Option.some.inj h).symm
  | think ms x p => exact (Option.some.inj h).symm
  | stop message => cases h
  | complete jar work =>
    rw [Act.trace] at h
    dsimp only at h
    split at h <;> cases h

variable [Scalar α] {channel : Channel (Plan α) Unit} {r : Recorder}

theorem rounds_of_moves (hone : plan.scenarios = [sc]) (hpercent : plan.sampling < 100)
    (hk : k.Matches c i w s.journal) (hjob : ∀ job, w.job? = some job → job.edition.plan = plan)
    (htaken : ∀ w', AtHead s.now w w' → (taken s i w').plan = plan) (hm : Moves c i s w t)
    (h : Rounds sc plan.sampling cap ws s.recorder) (hstop : t.worker.isStopped = false)
    (hs : ∀ work ∈ works t.events, work.succeeds = true) :
    Rounds sc plan.sampling cap (works t.events ++ ws) t.recorder := by
  obtain ⟨hr, hsuits⟩ := hk
  cases hm with
  | begins hp hf => exact h
  | leaves hhead hd => exact h
  | parks hhead hd he hp => exact h
  | @starts w' hhead hd e he delayMs hp act ha =>
    obtain ⟨hjar, hpending, hc⟩ := Session.idle_of_atHead hhead hsuits
    obtain ⟨k₁, hr₁, hdoes⟩ :=
      Session.exists_does_of_opens ha hr hjar hpending hc delayMs
    have hworks : works (act.trace c i s { w' with edition := some e } ⟨e, delayMs⟩).events =
        works ((act.trace c i s { w' with edition := some e } ⟨e, delayMs⟩).after
          (.paced i s.now e (some delayMs))).events := by
      simp [works, Trace.after, Event.work?]
    rw [← hworks] at hs ⊢
    exact rounds_trace (he ▸ htaken w' hhead) hone hpercent hr₁ hdoes h hstop hs
  | goesOn hg =>
    obtain ⟨k₁, hr₁, hdoes⟩ := Session.exists_does_of_goesOn hg hr hsuits
    exact rounds_trace (hjob _ hg.job) hone hpercent hr₁ hdoes h hstop hs

variable (c channel r) in
theorem local_planned : Local c (Reachable c channel r) fun _ _ w _ _ =>
    ∀ job, w.job? = some job → job.edition.plan ∈ c.plans channel.current where
  fresh _ := by simp [Worker.job?, Worker.fresh]
  wake _ h := h
  later _ _ _ h := h
  move {i s s₁ w wait t} hs hw ht _ h hm := by
    intro job hjob
    cases hm with
    | begins hp hf => cases hjob
    | leaves hhead hd => cases hjob
    | parks hhead hd he hp => cases hjob
    | @starts w' hhead hd e he delayMs hp act ha =>
      rw [job?_trace act hjob, he]
      exact taken_mem hs ht.channel hw hhead
    | goesOn hg =>
      rw [job?_trace _ hjob]
      exact h _ hg.job

end

namespace State

/-- Nothing has gone wrong so far: tracking is on, no worker has broken down, and all units of work
are executions that have succeeded. -/
structure Smooth (s : State α) : Prop where
  tracking : s.recorder.tracking = true
  running : ∀ w ∈ s.workers, w.isStopped = false
  succeeds : ∀ work ∈ s.units, work.succeeds = true

variable {c : Course α} {s s₁ : State α} {sc : Scenario α} {cap n : Nat}

theorem Passes.tracking {s' : State α} (h : Passes s s' n) (ht : s'.recorder.tracking = true) :
    s.recorder.tracking = true := by
  by_contra hoff
  have hskips := h.skips (Bool.eq_false_iff.mpr hoff)
  exact hoff (hskips.tracking ▸ ht)

variable [Scalar α]

theorem leavesOn_resumeGuard [Scalar.Ordered α] (c : Course α)
    (hconfig : s.watch.config.warning ≤ s.watch.config.critical)
    (hs : s.watch.Unwarned s.recorder) :
    GuardWatch.LeavesOn s.recorder (s.resumeGuard c).watch (s.resumeGuard c).recorder := by
  obtain ⟨hwatch, hrecorder⟩ := resumeGuard_eq c s
  rw [hwatch, hrecorder, guardTick]
  cases s.watchman with
  | fresh =>
    obtain ⟨hbegun, hs⟩ := hs.ensureBegun
    exact GuardWatch.leavesOn_tickBefore (hbegun.symm ▸ hconfig) hs c.deadline
  | waiting => exact GuardWatch.leavesOn_tickBefore hconfig hs c.deadline
  | ended => exact ⟨hs, fun _ => rfl⟩

end State

section

variable [Scalar α] {c : Course α} {channel : Channel (Plan α) Unit} {r : Recorder} {s s₁ : State α}
  {a : Actor} {P : Nat → Int → Worker α → Wait → List (Event α) → Prop}

theorem exists_deeds_resume (hh : Local.Holds P s) (ht : Turn a s s₁) :
    ∃ es, (s₁.resume c a).deeds = es ++ s.deeds := by
  rw [← ht.deeds]
  cases a with
  | guard => exact ⟨[], (tends_resumeGuard c s₁).deeds⟩
  | worker i =>
    cases hi : s.workers[i]? with
    | none => exact ⟨[], by rw [Local.resume_nobody ht hi]; rfl⟩
    | some w =>
      obtain ⟨t, -, hl⟩ := hh.exists_leads (c := c) ht hi
      exact ⟨t.events, hl.deeds⟩

theorem smooth_of_resume (hh : Local.Holds P s) (ht : Turn a s s₁)
    (h : (s₁.resume c a).Smooth) (htracking : s.recorder.tracking = true) : s.Smooth where
  tracking := htracking
  running w hw := by
    obtain ⟨j, hj⟩ := List.mem_iff_getElem?.mp hw
    by_cases ha : a = .worker j
    · subst ha
      obtain ⟨-, -, -, hover, -⟩ := hh.self ht hj
      exact (Bool.or_eq_false_iff.mp (w.isOver_eq.symm.trans hover)).2
    · rw [← ht.workers, ← (hh.only_resume (c := c) ht).worker j ha] at hj
      exact h.running w (List.mem_of_getElem? hj)
  succeeds work hwork := by
    obtain ⟨es, hes⟩ := exists_deeds_resume (c := c) hh ht
    refine h.succeeds work ?_
    rw [units, List.mem_reverse, ← works_deeds] at hwork ⊢
    rw [hes, works, List.filterMap_append]
    exact List.mem_append_right _ hwork

section

variable [Scalar.Ordered α]
  (hguard : channel.current.guard.warning ≤ channel.current.guard.critical)

include hguard

theorem unwarned (hs : Reachable c channel r s) : s.watch.Unwarned s.recorder := by
  induction hs with
  | start => exact fun _ _ => rfl
  | @step s s' hs hstep ih =>
    have hh := (local_taken c channel r).holds hs
    obtain ⟨a, s₁, ht, rfl⟩ | ⟨i, rest, hr, rfl⟩ := exists_turn_or_wake hh.inOrder hstep
    · have hconfig : s₁.watch.config = channel.current.guard := by
        rw [ht.watch]
        exact config_interleaved hs.interleaved
      rw [← ht.watch, ← ht.recorder] at ih
      cases a with
      | guard =>
        rw [← hconfig] at hguard
        exact (leavesOn_resumeGuard c hguard ih).unwarned
      | worker i =>
        have hp := passes_resume c s₁ i
        rw [GuardWatch.Unwarned, hp.watch]
        exact fun hauto hon => ih hauto (hp.tracking hon)
    · have hp := passes_wake ({ s with ready := rest } : State α) i
      rw [GuardWatch.Unwarned, hp.watch]
      exact fun hauto hon => ih hauto (hp.tracking hon)

variable {sc : Scenario α} {cap : Nat} (hnews : c.setting.news = [])
  (hone : channel.current.scenarios = [sc]) (hpercent : channel.current.sampling < 100)

include hnews hone hpercent

theorem rounds_turn (hs : Reachable c channel r s) (ht : Turn a s s₁)
    (ih : s.Smooth → Rounds sc channel.current.sampling cap (works s.deeds) s.recorder)
    (h : (s₁.resume c a).Smooth) :
    Rounds sc channel.current.sampling cap (works (s₁.resume c a).deeds)
      (s₁.resume c a).recorder := by
  have hh := (local_planned c channel r).holds hs
  rw [← ht.recorder, ← ht.deeds] at ih
  cases a with
  | guard =>
    have hconfig : s₁.watch.config = channel.current.guard := by
      rw [ht.watch]
      exact config_interleaved hs.interleaved
    have hu := unwarned hguard hs
    rw [← ht.watch, ← ht.recorder] at hu
    rw [← hconfig] at hguard
    have hrec : (s₁.resume c .guard).recorder = s₁.recorder :=
      (leavesOn_resumeGuard c hguard hu).recorder h.tracking
    have hbefore := smooth_of_resume hh ht h (ht.recorder ▸ hrec ▸ h.tracking)
    rw [hrec, State.resume, (tends_resumeGuard c s₁).deeds]
    exact ih hbefore
  | worker i =>
    have hon := (passes_resume c s₁ i).tracking h.tracking
    have hbefore := ih (smooth_of_resume hh ht h (ht.recorder ▸ hon))
    cases hi : s.workers[i]? with
    | none =>
      rw [Local.resume_nobody ht hi]
      exact hbefore
    | some w =>
      obtain ⟨t, hm, hl⟩ := hh.exists_leads (c := c) ht hi
      have hplan {plan : Plan α} (hp : plan ∈ c.plans channel.current) :
          plan = channel.current := by
        rw [Course.plans, hnews] at hp
        exact List.mem_singleton.mp hp
      obtain ⟨wait, hst⟩ := hh.stands i w hi
      obtain ⟨k, hk⟩ := (inSession hs.interleaved).sessions i w hi
      rw [← ht.journal] at hk
      have hunits : ∀ work ∈ works t.events, work.succeeds = true := by
        intro work hwork
        refine h.succeeds work ?_
        rw [units, List.mem_reverse, ← works_deeds, hl.deeds, works, List.filterMap_append]
        exact List.mem_append_left _ hwork
      have hstop := h.running t.worker (List.mem_of_getElem? hl.standing.worker)
      rw [hl.recorder, hl.deeds, works, List.filterMap_append]
      exact rounds_of_moves hone hpercent hk (fun job hjob => hplan (hst.holds job hjob))
        (fun w' hw' => hplan (taken_mem hs ht.channel hi hw')) hm hbefore hstop hunits

/-- While nothing goes wrong, a run under a plan with one scenario repeats that scenario. -/
theorem rounds {listening : Bool} {begun : Int}
    (hs : Reachable c channel (.create cap listening begun) s) (h : s.Smooth) :
    Rounds sc channel.current.sampling cap (works s.deeds) s.recorder := by
  induction hs with
  | start =>
    exact ⟨.start h.tracking _ _ _ _ _, by simp [Course.start, deeds, works]⟩
  | @step s s' hs hstep ih =>
    have hh := (local_planned c channel (.create cap listening begun)).holds hs
    obtain ⟨a, s₁, ht, rfl⟩ | ⟨i, rest, hr, rfl⟩ := exists_turn_or_wake hh.inOrder hstep
    · exact rounds_turn hguard hnews hone hpercent hs ht ih h
    · -- a wake-up leaves everything as it is
      obtain ⟨hjournal, hrec⟩ := journal_wake ({ s with ready := rest } : State α) i
      have hworkers := (channel_wake ({ s with ready := rest } : State α) i).2
      rw [State.deeds, hjournal, hrec]
      refine ih ⟨hrec ▸ h.tracking, hworkers ▸ h.running, ?_⟩
      have hunits := h.succeeds
      rw [units, hjournal] at hunits
      exact hunits

end

end

end LoadGenerator.Run
