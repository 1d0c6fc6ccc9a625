import LoadGenerator.Proofs.Guard.Readings
import LoadGenerator.Proofs.Run.Waking
import LoadGenerator.Proofs.Run.Works

namespace LoadGenerator.Run

open Http Metrics State

instance (e : TransportError) : Decidable (Known e) :=
  inferInstanceAs (Decidable (e.kind.number < Account.kinds))

instance (step : StepResult) : Decidable (KnownStep step) :=
  inferInstanceAs (Decidable (∀ e ∈ step.transportError, Known e))

def enteredSteps : List StepResult → List StepResult
  | [] => []
  | step :: steps => step :: if KnownStep step then enteredSteps steps else []

def Work.measured : Work → Nat
  | .bare _ _ _ => 1
  | .scenario r =>
    (enteredSteps r.steps).length +
      if (∀ step ∈ r.steps, KnownStep step) ∧ r.interrupted = false then 1 else 0
  | .nothing => 0

section

variable {a : Account}

theorem report_cases (ha : a.trouble = none) (worker : Nat) (e : TransportError) :
    (a.report worker e).recorder = a.recorder ∧
      ((a.report worker e).trouble = none ↔ Known e) := by
  by_cases he : Known e
  · obtain ⟨ht, hr⟩ := report_eq (a := a) worker he
    exact ⟨hr, iff_of_true (ht.trans ha) he⟩
  · have hkinds : Account.kinds ≤ e.kind.number := Nat.not_lt.mp he
    rw [Account.report, if_pos hkinds]
    exact ⟨rfl, iff_of_false (Option.some_ne_none _) he⟩

theorem skips_ofStep (ht : a.recorder.tracking = false) (ha : a.trouble = none)
    (percent worker : Nat) (scenario : Bytes) (step : StepResult) :
    Recorder.Skips a.recorder (Account.ofStep percent worker scenario a step).recorder 1 ∧
      ((Account.ofStep percent worker scenario a step).trouble = none ↔ KnownStep step) := by
  rw [Account.ofStep, andThen_eq ha]
  dsimp only
  generalize hc : (a.measure percent .step (Work.stepLabel scenario step.name)
    step.elapsedMs).change (·.addRequest (Work.stepOutcome (Work.stepLabel scenario step.name)
      step)) = counted
  have hs : Recorder.Skips a.recorder counted.recorder 1 := by
    rw [← hc]
    exact (Recorder.skips_measure ht percent .step _ _).trans (Recorder.skips_addRequest _ _)
  have hct : counted.trouble = none := by rw [← hc]; exact ha
  cases he : step.transportError with
  | none => exact ⟨hs, iff_of_true hct (by simp [KnownStep, he])⟩
  | some e =>
    obtain ⟨hr, ht⟩ := report_cases hct worker e
    refine ⟨hr ▸ hs, ht.trans ?_⟩
    simp [KnownStep, he]

theorem foldl_ofStep_of_trouble (ha : a.trouble.isSome) (percent worker : Nat) (scenario : Bytes)
    (steps : List StepResult) : steps.foldl (Account.ofStep percent worker scenario) a = a := by
  induction steps with
  | nil => rfl
  | cons step steps ih =>
    have hstep : Account.ofStep percent worker scenario a step = a := by
      rw [Account.ofStep, Account.andThen, if_pos ha]
    rw [List.foldl_cons, hstep, ih]

theorem skips_ofSteps (ht : a.recorder.tracking = false) (ha : a.trouble = none)
    (percent worker : Nat) (scenario : Bytes) (steps : List StepResult) :
    Recorder.Skips a.recorder (steps.foldl (Account.ofStep percent worker scenario) a).recorder
        (enteredSteps steps).length ∧
      ((steps.foldl (Account.ofStep percent worker scenario) a).trouble = none ↔
        ∀ step ∈ steps, KnownStep step) := by
  induction steps generalizing a with
  | nil => exact ⟨.refl _, iff_of_true ha (by simp)⟩
  | cons step steps ih =>
    obtain ⟨hs, htrouble⟩ := skips_ofStep ht ha percent worker scenario step
    rw [List.foldl_cons, enteredSteps]
    by_cases hstep : KnownStep step
    · obtain ⟨hs', htrouble'⟩ := ih (hs.tracking.trans ht) (htrouble.mpr hstep)
      rw [if_pos hstep, List.length_cons, Nat.add_comm]
      exact ⟨hs.trans hs', by rw [htrouble', List.forall_mem_cons, and_iff_right hstep]⟩
    · -- the account is in trouble from here on, and takes no later step
      have hsome := Option.ne_none_iff_isSome.mp (mt htrouble.mp hstep)
      rw [if_neg hstep, foldl_ofStep_of_trouble hsome]
      refine ⟨hs, iff_of_false (mt htrouble.mp hstep) fun h => hstep (h step ?_)⟩
      exact List.mem_cons_self

theorem skips_andThen {f : Account → Account}
    (hf : a.trouble = none → Recorder.Skips a.recorder (f a).recorder 0) :
    Recorder.Skips a.recorder (a.andThen f).recorder 0 := by
  rw [Account.andThen]
  split
  · exact .refl _
  · next h => exact hf (Option.not_isSome_iff_eq_none.mp h)

theorem recorder_reportReply (ha : a.trouble = none) (worker : Nat) (reply : Reply) :
    (a.reportReply worker reply).recorder = a.recorder := by
  cases reply with
  | ok response => rfl
  | error e => exact (report_cases ha worker e).1

theorem skips_ofBare (ht : a.recorder.tracking = false) (ha : a.trouble = none) (now : Int)
    (percent worker : Nat) (label : Bytes) (reply : Reply) (ms : Float) :
    Recorder.Skips a.recorder (a.ofBare now percent worker label reply ms).recorder 1 := by
  have hunit := Recorder.skips_countUnit a.recorder now label (.ofFloat ms)
  have hmeasure := hunit.trans
    (Recorder.skips_measure (hunit.tracking.trans ht) percent .request label ms)
  rw [Account.ofBare]
  generalize hm : (a.change (·.countUnit now label (.ofFloat ms))).measure percent .request label
    ms = b
  have hb : b.trouble = none := by rw [← hm]; exact ha
  have hreport := recorder_reportReply hb worker reply
  have hb' : Recorder.Skips a.recorder (b.reportReply worker reply).recorder 1 := by
    rw [hreport, ← hm]
    exact hmeasure
  exact hb'.trans (skips_andThen fun _ => Recorder.skips_addRequest _ _)

theorem skips_ofScenario (ht : a.recorder.tracking = false) (ha : a.trouble = none) (now : Int)
    (percent worker : Nat) (r : ScenarioResult) :
    Recorder.Skips a.recorder (a.ofScenario now percent worker r).recorder
      (Work.scenario r).measured := by
  obtain ⟨hs, htrouble⟩ := skips_ofSteps ht ha percent worker r.name r.steps
  rw [Account.ofScenario, Work.measured]
  generalize r.steps.foldl (Account.ofStep percent worker r.name) a = b at hs htrouble ⊢
  refine hs.trans ?_
  by_cases hb : b.trouble = none
  · rw [andThen_eq hb]
    dsimp only
    have hunit := Recorder.skips_countUnit b.recorder now r.name (.ofFloat r.totalMs)
    cases hi : r.interrupted with
    | true =>
      rw [if_pos rfl, if_neg (by simp)]
      exact hunit.trans (Recorder.skips_addScenario _ _)
    | false =>
      rw [if_neg (by simp), if_pos ⟨htrouble.mp hb, rfl⟩]
      have hoff := hunit.tracking.trans (hs.tracking.trans ht)
      exact (hunit.trans (Recorder.skips_measure hoff percent .scenario r.name r.totalMs)).trans
        (Recorder.skips_addScenario _ _)
  · rw [if_neg fun h => hb (htrouble.mpr h.1), Account.andThen,
      if_pos (Option.ne_none_iff_isSome.mp hb)]
    exact .refl _

/-- Without tracking, as many measurements are skipped as the work has, and nothing else happens to
the latencies. -/
theorem skips_ofWork (ht : a.recorder.tracking = false) (ha : a.trouble = none) (now : Int)
    (percent worker : Nat) (work : Work) :
    Recorder.Skips a.recorder (a.ofWork now percent worker work).recorder work.measured := by
  cases work with
  | bare label reply ms => exact skips_ofBare ht ha now percent worker label reply ms
  | scenario r => exact skips_ofScenario ht ha now percent worker r
  | nothing => exact .refl _

end

def Act.measured : Act → Nat
  | .complete _ work => work.measured
  | _ => 0

variable {α : Type}

namespace State

variable {c : Course α} {s : State α}

theorem watch_publishAll (s : State α) (plans : List (Plan α)) :
    (s.publishAll plans).watch = s.watch := by
  induction plans generalizing s with
  | nil => rfl
  | cons plan plans ih => exact ih _

/-- A worker has measured so many latencies, all of which are skipped. -/
structure Passes (s s' : State α) (n : Nat) : Prop where
  watch : s'.watch = s.watch
  skips : s.recorder.tracking = false → Recorder.Skips s.recorder s'.recorder n

theorem Passes.of_eq {s' : State α} (hw : s'.watch = s.watch) (hr : s'.recorder = s.recorder) :
    Passes s s' 0 := ⟨hw, fun _ => hr ▸ .refl _⟩

theorem Passes.of_aside {t s' : State α} {n : Nat} (hw : t.watch = s.watch)
    (hr : t.recorder = s.recorder) (h : Passes t s' n) : Passes s s' n :=
  ⟨h.watch.trans hw, hr ▸ h.skips⟩

theorem passes_pauseUntil (s : State α) (i : Nat) (w : Worker α) (time : Int) :
    Passes s (s.pauseUntil i w time) 0 := by
  rw [pauseUntil]
  split
  · exact .of_eq rfl rfl
  · exact .of_eq rfl rfl

theorem passes_finishUnit (c : Course α) (s : State α) (i : Nat) (w : Worker α) (job : Job α)
    (work : Work) : Passes s (s.finishUnit c i w job work) 0 := by
  rw [finishUnit]
  dsimp only
  split
  · exact .of_eq rfl rfl
  · exact .of_aside (t := s.note (.ended i s.now job work)) rfl rfl (passes_pauseUntil _ i _ _)

theorem passes_complete (c : Course α) (s : State α) (i : Nat) (w : Worker α) (job : Job α)
    (work : Work) : Passes s (s.complete c i w job work) work.measured := by
  have hw (ht : s.recorder.tracking = false) :=
    skips_ofWork (a := .ofRecorder s.recorder w.reported) ht rfl s.now job.edition.plan.sampling i
      work
  rw [complete]
  generalize (Account.ofRecorder s.recorder w.reported).ofWork s.now job.edition.plan.sampling i
    work = a at hw ⊢
  have hrecord (s' : State α) (h : Passes ({ s with recorder := a.recorder }.say a.notices) s' 0) :
      Passes s s' work.measured := by
    refine ⟨h.watch, fun ht => ?_⟩
    have hskips := hw ht
    exact hskips.trans (h.skips (hskips.tracking.trans ht))
  split
  · exact hrecord _ (.of_eq rfl rfl)
  · exact hrecord _ (passes_finishUnit c _ i _ job work)

theorem passes_carryOut (c : Course α) (s : State α) (i : Nat) (w : Worker α) (job : Job α)
    (act : Act) : Passes s (s.carryOut c i w job act) act.measured := by
  cases act with
  | send request purpose =>
    exact .of_eq (watch_publishAll _ _) (recorder_publishAll _ _)
  | think ms x p => exact .of_eq rfl rfl
  | complete jar work => exact passes_complete c s i { w with jar } job work
  | stop message => exact .of_eq rfl rfl

variable [Scalar α]

def headAct? (c : Course α) (s : State α) (i : Nat) (w : Worker α) : Option Act :=
  if s.now < c.deadline then
    let e := (s.refresh i w.edition).1
    (Pacing.delay? (s.rate c e) c.workers).map fun _ =>
      (s.beginUnit c { w with edition := some e } e).1
  else none

def act? (c : Course α) (s : State α) (i : Nat) (w : Worker α) : Option Act :=
  match w.phase with
  | .pausing => s.headAct? c i w
  | .parked => s.headAct? c i { w with phase := .pausing, nextFire := s.now }
  | .sending _ purpose sentAt answer => some (s.receive c w purpose sentAt answer).1
  | .thinking _ x p => some (.ofDemand x s.now (x.next p s.now))
  | _ => none

def measured (c : Course α) (s : State α) (i : Nat) : Nat :=
  ((s.workers[i]?.bind (s.act? c i)).map Act.measured).getD 0

omit [Scalar α] in
theorem watch_receive (c : Course α) (s : State α) (w : Worker α) (purpose : Purpose)
    (sentAt : Int) (answer : Answer) :
    (s.receive c w purpose sentAt answer).2.watch = s.watch := by
  unfold receive
  split <;> rfl

theorem watch_beginUnit (c : Course α) (s : State α) (w : Worker α) (e : Edition α) :
    (s.beginUnit c w e).2.watch = s.watch := by
  have hdeal (s₁ : State α) (key : Nat × Nat) (table : Option Table) :
      (s₁.deal key table).2.watch = s₁.watch := by
    cases table <;> rfl
  unfold beginUnit
  split
  · exact hdeal (s.draw c).2 _ _
  · rfl
  · rfl

theorem act_beginUnit (c : Course α) (s : State α) (notices : List Notice) (event : Event α)
    (w : Worker α) (e : Edition α) :
    (((s.say notices).note event).beginUnit c w e).1 = (s.beginUnit c w e).1 := by
  have hdeal (s₁ s₂ : State α) (h : s₁.dealt = s₂.dealt) (key : Nat × Nat)
      (table : Option Table) : (s₁.deal key table).1 = (s₂.deal key table).1 := by
    cases table with
    | none => rfl
    | some table => simp only [deal, dealtOf, h]
  unfold beginUnit
  split
  · dsimp only
    rw [(Aside.deal _ _ _).now, (Aside.deal _ _ _).now,
      hdeal (((s.say notices).note event).draw c).2 (s.draw c).2 rfl]
    rfl
  · rfl
  · rfl

theorem passes_turn (c : Course α) (s : State α) (i : Nat) (w : Worker α) :
    Passes s (s.turn c i w) (((s.headAct? c i w).map Act.measured).getD 0) := by
  rw [turn, headAct?]
  split
  · generalize s.refresh i w.edition = p
    obtain ⟨e, notices⟩ := p
    dsimp only
    cases Pacing.delay? (s.rate c e) c.workers with
    | none => exact .of_eq rfl rfl
    | some delayMs =>
      -- `headAct?` leaves the journal out, which the act does not look at
      let s₁ : State α := (s.say notices).note (.paced i s.now e (some delayMs))
      let w₁ : Worker α := { w with edition := some e }
      have hopens := (beginUnit_opens (c := c) (s := s₁) (w := w₁) e).2
      have hact := act_beginUnit c s notices (.paced i s.now e (some delayMs)) w₁ e
      change Passes s _ (s.beginUnit c w₁ e).1.measured
      rw [← hact]
      exact .of_aside (watch_beginUnit c s₁ w₁ e) hopens.recorder (passes_carryOut c _ i w₁ _ _)
  · exact .of_eq rfl rfl

theorem passes_resumeWorker (c : Course α) (s : State α) (i : Nat) (w : Worker α) :
    Passes s (s.resumeWorker c i w) (((s.act? c i w).map Act.measured).getD 0) := by
  rw [resumeWorker, act?]
  cases hp : w.phase with
  | fresh =>
    exact .of_aside (t := s.note (.begun i s.now s.edition)) rfl rfl (passes_pauseUntil _ i _ _)
  | pausing => exact passes_turn c s i w
  | parked => exact passes_turn c s i { w with phase := .pausing, nextFire := s.now }
  | sending job purpose sentAt answer =>
    have haside := (receive_goesOn (c := c) (s := s) hp).2
    exact .of_aside (watch_receive c s w purpose sentAt answer) haside.recorder
      (passes_carryOut c _ i w job _)
  | thinking job x p => exact passes_carryOut c s i w job _
  | finished => exact .of_eq rfl rfl
  | stopped => exact .of_eq rfl rfl

theorem passes_resume (c : Course α) (s : State α) (i : Nat) :
    Passes s (s.resume c (.worker i)) (s.measured c i) := by
  rw [resume, measured]
  cases s.workers[i]? with
  | none => exact .of_eq rfl rfl
  | some w => exact passes_resumeWorker c s i w

omit [Scalar α] in
theorem passes_wake (s : State α) (i : Nat) : Passes s (s.wake i) 0 := by
  rw [State.wake]
  split
  · rw [cancel]
    split
    · exact .of_eq rfl rfl
    · exact .of_eq rfl rfl
  · exact .of_eq rfl rfl

/-- What the guard comes to that goes on: its watch, the recorder, and the action that a reading
evaluates to. At first it has still to begin, and in the end it reads no more. -/
def guardTick (c : Course α) (s : State α) :
    GuardWatch α × Recorder × Option GuardAction × List Notice :=
  match s.watchman with
  | .fresh => s.watch.ensureBegun.1.tickBefore s.now c.deadline s.recorder
  | .waiting => s.watch.tickBefore s.now c.deadline s.recorder
  | .ended => (s.watch, s.recorder, none, [])

theorem takeReading_eq (c : Course α) (s : State α) (reading : Memory.Reading) :
    (s.takeReading c reading).watch = (s.watch.take s.now reading s.recorder).1 ∧
      (s.takeReading c reading).recorder = (s.watch.take s.now reading s.recorder).2.1 := by
  cases reading with
  | broken message => exact ⟨rfl, rfl⟩
  | bytes usage => exact ⟨rfl, rfl⟩
  | unknown => exact ⟨rfl, rfl⟩

theorem poll_eq (c : Course α) (s : State α) :
    (s.poll c).watch = (s.watch.tickBefore s.now c.deadline s.recorder).1 ∧
      (s.poll c).recorder = (s.watch.tickBefore s.now c.deadline s.recorder).2.1 := by
  rw [poll]
  unfold GuardWatch.tickBefore GuardWatch.tick
  split
  · cases s.watch.read? s.now with
    | none => exact ⟨rfl, rfl⟩
    | some p =>
      obtain ⟨reading, watch⟩ := p
      let s₁ : State α := { s with watch }
      let plans := c.setting.newsAt (.reading s.watch.readAt.length)
      have hnow : (s₁.publishAll plans).now = s.now :=
        (only_publishAll (c := c) .guard fun _ => mem_newsAt).now
      have heq := takeReading_eq c (s₁.publishAll plans) reading
      rw [watch_publishAll, recorder_publishAll, hnow] at heq
      exact heq
  · exact ⟨rfl, rfl⟩

theorem resumeGuard_eq (c : Course α) (s : State α) :
    (s.resumeGuard c).watch = (s.guardTick c).1 ∧
      (s.resumeGuard c).recorder = (s.guardTick c).2.1 := by
  unfold resumeGuard guardTick
  cases s.watchman with
  | fresh =>
    dsimp only [beginWatch]
    generalize s.watch.ensureBegun = begun
    cases hactive : begun.1.state.active with
    | true => exact poll_eq c ({ s with watch := begun.1 }.say begun.2)
    | false =>
      have htick : begun.1.tickBefore s.now c.deadline s.recorder =
          (begun.1, s.recorder, none, []) := by
        simp [GuardWatch.tickBefore, GuardWatch.tick, GuardWatch.read?, hactive]
      rw [htick]
      exact ⟨rfl, rfl⟩
  | waiting => exact poll_eq c s
  | ended => exact ⟨rfl, rfl⟩

theorem reads_resumeGuard (c : Course α) (s : State α) :
    s.watch.Reads s.now s.recorder (s.resumeGuard c).watch (s.resumeGuard c).recorder
      (s.guardTick c).2.2.1 := by
  obtain ⟨hwatch, hrecorder⟩ := resumeGuard_eq c s
  rw [hwatch, hrecorder, guardTick]
  cases s.watchman with
  | fresh => exact (s.watch.ensureBegun.1.reads_tickBefore s.now c.deadline s.recorder).of_begun
  | waiting => exact s.watch.reads_tickBefore s.now c.deadline s.recorder
  | ended => exact s.watch.reads_nothing s.now s.recorder

end State

variable [Scalar α] {c : Course α} {channel : Channel (Plan α) Unit} {r : Recorder}
  {m m' m'' : Scene α} {s s' : State α}

/-- In a step a worker goes on, which measures so many latencies, or something else happens. -/
inductive Measures (c : Course α) : Scene α → Scene α → Nat → Prop
  | worker {s : State α} {calls : List Nat} {pre rest : List Task} {i : Nat}
      (h : s.ready = pre ++ .resume (.worker i) :: rest) :
      Measures c ⟨s, calls⟩
        ⟨({ s with ready := pre ++ rest } : State α).resume c (.worker i), calls⟩
        (({ s with ready := pre ++ rest } : State α).measured c i)
  | other {m m' : Scene α} (hs : Happens c m m')
      (h : ∀ i pre rest, m.state.ready = pre ++ .resume (.worker i) :: rest →
        m' ≠ ⟨({ m.state with ready := pre ++ rest } : State α).resume c (.worker i), m.calls⟩) :
      Measures c m m' 0

inductive Measured (c : Course α) (m : Scene α) : Scene α → Nat → Prop
  | nothing : Measured c m m 0
  | step {m' m'' : Scene α} {n k : Nat} (h : Measured c m m' n) (hs : Measures c m' m'' k) :
      Measured c m m'' (n + k)

theorem exists_measures (h : Happens c m m') : ∃ n, Measures c m m' n := by
  by_cases hw : ∃ i pre rest, m.state.ready = pre ++ .resume (.worker i) :: rest ∧
    m' = ⟨({ m.state with ready := pre ++ rest } : State α).resume c (.worker i), m.calls⟩
  · obtain ⟨i, pre, rest, hr, rfl⟩ := hw
    exact ⟨_, .worker hr⟩
  · exact ⟨0, .other h fun i pre rest hr heq => hw ⟨i, pre, rest, hr, heq⟩⟩

theorem exists_measured (h : Later c m m') : ∃ n, Measured c m m' n := by
  induction h with
  | refl => exact ⟨0, .nothing⟩
  | tail h hs ih =>
    obtain ⟨n, hn⟩ := ih
    obtain ⟨k, hk⟩ := exists_measures hs
    exact ⟨n + k, hn.step hk⟩

theorem reads_or_passes {n : Nat} (h : Measures c m m' n) :
    (n = 0 ∧ GuardWatch.Reads m.state.watch m.state.now m.state.recorder m'.state.watch
        m'.state.recorder (m.state.guardTick c).2.2.1) ∨ Passes m.state m'.state n := by
  cases h with
  | @worker s calls pre rest i h =>
    exact .inr (.of_aside (t := { s with ready := pre ++ rest }) rfl rfl (passes_resume c _ i))
  | other hs h =>
    cases hs with
    | elapses h => exact .inr (.of_eq rfl rfl)
    | @performs s calls pre rest task hr =>
      cases task with
      | resume a =>
        cases a with
        | worker i => exact absurd rfl (h i pre rest hr)
        | guard =>
          exact .inl ⟨rfl, reads_resumeGuard c { s with ready := pre ++ rest }⟩
      | wake i =>
        exact .inr (.of_aside (t := { s with ready := pre ++ rest }) rfl rfl (passes_wake _ i))
    | expires h ht => exact .inr (.of_eq rfl rfl)
    | announces plan => exact .inr (.of_eq rfl rfl)
    | asks => exact .inr (.of_eq rfl rfl)

theorem config_interleaved (h : Interleaved c channel r m) :
    m.state.watch.config = channel.current.guard := by
  induction h with
  | start => rfl
  | step h hs ih =>
    obtain ⟨n, hn⟩ := exists_measures hs
    obtain ⟨-, hreads⟩ | hpasses := reads_or_passes hn
    · exact hreads.config.trans ih
    · exact (congrArg GuardWatch.config hpasses.watch).trans ih

theorem skips_measured {n : Nat} (hr : m.state.recorder.IsShed)
    (hd : m.state.watch.state.disabledAt.isSome = true) (h : Measured c m m' n) :
    Recorder.Skips m.state.recorder m'.state.recorder n ∧
      m'.state.watch.state.disabledAt = m.state.watch.state.disabledAt := by
  induction h with
  | nothing => exact ⟨.refl _, rfl⟩
  | @step m₁ m₂ n k h hs ih =>
    obtain ⟨hskips, hdisabled⟩ := ih
    have hr₁ := hr.of_skips hskips
    obtain ⟨rfl, hreads⟩ | hpasses := reads_or_passes hs
    · obtain ⟨hrec, hdis⟩ := hreads.of_isShed hr₁ (hdisabled ▸ hd)
      rw [hrec]
      exact ⟨hskips, hdis.trans hdisabled⟩
    · refine ⟨hskips.trans (hpasses.skips hr₁.tracking), ?_⟩
      rw [hpasses.watch, hdisabled]

/-- In a step the guard goes on, and evaluates its reading to an action. -/
inductive Evaluates (c : Course α) : Scene α → Scene α → GuardAction → Prop
  | guard {s : State α} {calls : List Nat} {pre rest : List Task} {a : GuardAction}
      (h : s.ready = pre ++ .resume .guard :: rest) (ha : (s.guardTick c).2.2.1 = some a) :
      Evaluates c ⟨s, calls⟩ ⟨({ s with ready := pre ++ rest } : State α).resume c .guard, calls⟩ a

theorem Evaluates.happens {a : GuardAction} (h : Evaluates c m m' a) : Happens c m m' := by
  cases h with
  | guard hr ha => exact .performs hr

theorem Evaluates.reads {a : GuardAction} (h : Evaluates c m m' a) :
    m.state.watch.Reads m.state.now m.state.recorder m'.state.watch m'.state.recorder a := by
  cases h with
  | @guard s calls pre rest a hr ha =>
    rw [← ha]
    exact reads_resumeGuard c { s with ready := pre ++ rest }

/-- Tracking has been turned off in the step from `m` to `m₁`, and has stayed off up to `m₂`. -/
structure StaysShed (c : Course α) (m m₁ m₂ : Scene α) : Prop where
  tracking : m₂.state.recorder.tracking = false
  isEmpty : ∀ t, (m₂.state.recorder.tracker t).IsEmpty
  disabledAt : m₂.state.watch.state.disabledAt =
    m.state.watch.state.disabledAt.or (some m.state.now)
  turn : m₂.state.recorder.turn = m₁.state.recorder.turn
  trackers : ∀ t, m₂.state.recorder.tracker t = m₁.state.recorder.tracker t
  measured : ∃ n, Measured c m₁ m₂ n
  skipped : ∀ n, Measured c m₁ m₂ n →
    m₂.state.recorder.skipped = m₁.state.recorder.skipped + n

/-- When a reading is a warning, tracking is off for the rest of the run. -/
theorem stays_shed {m₁ m₂ : Scene α} (h : Interleaved c channel r m)
    (hauto : channel.current.guard.autoDisable = true) {a : GuardAction}
    (he : Evaluates c m m₁ a) (ha : a.warned = true) (hl : Later c m₁ m₂) :
    StaysShed c m m₁ m₂ := by
  have hconfig : m.state.watch.config.autoDisable = true := (config_interleaved h).symm ▸ hauto
  obtain ⟨hrec, hdisabled⟩ := he.reads.warned hconfig ha
  have hshed : m₁.state.recorder.IsShed := hrec ▸ Recorder.isShed_disableTracking_rotate _
  have hsome : m₁.state.watch.state.disabledAt.isSome = true := by
    rw [hdisabled, Option.isSome_or]
    simp
  have hskips (n : Nat) (hn : Measured c m₁ m₂ n) :
      Recorder.Skips m₁.state.recorder m₂.state.recorder n ∧
        m₂.state.watch.state.disabledAt = m₁.state.watch.state.disabledAt :=
    skips_measured hshed hsome hn
  obtain ⟨n, hn⟩ := exists_measured hl
  obtain ⟨hs, hd⟩ := hskips n hn
  constructor
  case tracking => exact (hshed.of_skips hs).tracking
  case isEmpty => exact (hshed.of_skips hs).isEmpty
  case disabledAt => exact hd.trans hdisabled
  case turn => exact hs.turn
  case trackers => exact hs.trackers
  case measured => exact ⟨n, hn⟩
  case skipped => exact fun n hn => (hskips n hn).1.skipped

def straining : Setting Rat :=
  { Setting.ofClient (steady 10000000) with
    memory := some ⟨some 1000, fun n => .bytes ([850, 600, 950].getD n 500)⟩ }

def guarded : Plan Rat :=
  { planOf 1 1 (.constant 20) with
    percentiles := true
    guard := { GuardConfig.usual with intervalMs := 100 } }

def strained : State Rat :=
  let c := Course.ofPlan straining guarded 0
  { c.start (.ofPlan guarded) (.create 10 false 0) with ready := [.resume (.worker 0)] }.resume c
    .guard

theorem stays_shed_twice :
    let c := Course.ofPlan straining guarded 0
    let m : Scene Rat := ⟨c.start (.ofPlan guarded) (.create 10 false 0), []⟩
    let m₂ : Scene Rat := ⟨(strained.publish guarded).advance c 40, []⟩
    StaysShed c m ⟨strained, []⟩ m₂ ∧ m₂.state.watch.state.warnings = 2 ∧
      m₂.state.channel.current.percentiles = true ∧ m₂.state.recorder.skipped = 15 := by
  intro c m m₂
  have he : Evaluates c m ⟨strained, []⟩ .warning := by
    have hr : m.state.ready = [.resume (.worker 0)] ++ .resume .guard :: [] := by decide +kernel
    exact .guard hr (by decide +kernel)
  have hl : Later c ⟨strained, []⟩ m₂ :=
    kept_advance .tail (kept_publish .tail .refl guarded) 40
  have h : StaysShed c m ⟨strained, []⟩ m₂ :=
    stays_shed .start (by decide) he rfl hl
  refine ⟨h, ?_, ?_, ?_⟩
  · decide +kernel
  · decide +kernel
  · decide +kernel

end LoadGenerator.Run
