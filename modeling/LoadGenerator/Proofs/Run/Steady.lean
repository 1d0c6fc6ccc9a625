import LoadGenerator.Proofs.Run.Rounds

namespace LoadGenerator.Run

open Http Metrics State

variable {α : Type}

/-- A step that is content with any answer, and makes no pause. -/
def IsPlain (step : Step) : Prop := step.assertions = [] ∧ step.thinkTime = none

/-- The client answers everything after the same time, nobody watches the memory, and the plan is
for one worker to do plain steps without a pause. -/
structure Steadily (c : Course α) (plan : Plan α) (steps : List Step) (latency : Nat) : Prop where
  workers : c.workers = 1
  memory : c.setting.memory = none
  client : c.setting.client = steady latency
  news : c.setting.news = []
  load : plan.load = .concurrent
  selector : ∃ selector, plan.selector = some selector ∧
    ∀ scenario ∈ selector.scenarios, scenario.steps = steps
  plain : ∀ step ∈ steps, IsPlain step

structure Unwatched (s : State α) : Prop where
  source : s.watch.source = none
  active : s.watch.state.active = false
  watchman : s.watchman ≠ .waiting

structure Fares (plan : Plan α) (cap n : Nat) (s : State α) : Prop where
  current : s.channel.current = plan
  units : s.units.length = n
  succeeds : ∀ work ∈ s.units, work.succeeds = true
  sampled : ∃ ms, Sampled plan.sampling cap ms s.recorder
  unwatched : Unwatched s

structure Busy (plan : Plan α) (cap n : Nat) (queue : List Task) (s : State α) (w : Worker α) :
    Prop where
  fares : Fares plan cap n s
  ready : s.ready = queue
  timers : s.timers = []
  workers : s.workers = [w]
  edition : w.edition = some s.edition

structure Poised (plan : Plan α) (cap n : Nat) (queue : List Task) (s : State α) : Prop where
  fares : Fares plan cap n s
  ready : s.ready = .resume (.worker 0) :: queue
  timers : s.timers = []
  worker : ∃ w, s.workers = [w] ∧ w.edition = some s.edition ∧ w.phase = .pausing

structure Asks (c : Course α) (plan : Plan α) (latency cap n : Nat) (left : List Step)
    (queue : List Task) (s : State α) : Prop where
  fares : Fares plan cap n s
  ready : s.ready = queue
  timers : s.timers = [⟨s.now + latency, .worker 0⟩]
  worker : ∃ w x p step, s.workers = [w] ∧ w.edition = some s.edition ∧
    w.phase = .sending ⟨s.edition, 0⟩ (.step x p step) s.now ⟨latency, .ok (.ok ⟨200, [], []⟩)⟩ ∧
    x.deadline = some c.deadline ∧ IsPlain step ∧ p.left = left ∧ ∀ r ∈ p.done, KnownStep r

variable {c : Course α} {plan : Plan α} {steps : List Step} {latency cap n : Nat}
  {queue : List Task} {s s' : State α}

theorem Fares.of_eq (h : Fares plan cap n s) (hc : s'.channel = s.channel)
    (hr : s'.recorder = s.recorder) (hu : s'.units = s.units) (hw : s'.watch = s.watch)
    (hm : s'.watchman = s.watchman) : Fares plan cap n s' where
  current := hc ▸ h.current
  units := hu ▸ h.units
  succeeds := hu ▸ h.succeeds
  sampled := hr ▸ h.sampled
  unwatched := ⟨hw ▸ h.unwatched.source, hw ▸ h.unwatched.active, hm ▸ h.unwatched.watchman⟩

theorem Poised.smooth (h : Poised plan cap n queue s) : s.Smooth where
  tracking := by
    obtain ⟨ms, hms⟩ := h.fares.sampled
    exact hms.tracking
  running w hw := by
    obtain ⟨w', hworkers, -, hphase⟩ := h.worker
    rw [hworkers, List.mem_singleton] at hw
    rw [hw, Worker.isStopped, hphase]
  succeeds := h.fares.succeeds

section

variable {x : Execution} {p : Execution.Progress} {step : Step} {now : Int}

theorem exists_resume_eq (x : Execution) (hstep : IsPlain step) (hp : ∀ r ∈ p.done, KnownStep r)
    (sentAt now : Int) (random : Nat) : ∃ p' lines,
      x.resume p step (.ok ⟨200, [], []⟩) sentAt now random = (x.next p' now, lines) ∧
      p'.left = p.left ∧ ∀ r ∈ p'.done, KnownStep r := by
  have hknown : KnownReply (.ok ⟨200, [], []⟩) := by
    intro e he
    cases he
  let received := Execution.receive p step (.ok ⟨200, [], []⟩) (millisBetween sentAt now)
  refine ⟨received.1, received.2.2, ?_, Execution.left_receive p step _ _,
    (sound_receive hp step hknown _).1⟩
  obtain ⟨hnone, hpause⟩ := hstep
  simp [received, Execution.resume, Execution.receive, Execution.checked, Assertion.checkAll, hnone,
    hpause]

theorem next_cons (hx : x.deadline = some c.deadline) (hd : now < c.deadline) {left : List Step}
    (hp : p.left = step :: left) :
    x.next p now = .send (x.request step p) step { p with left } := by
  have hover : x.isOver p now = false := by
    simp [Execution.isOver, hx, Int.not_le.mpr hd]
  rw [Execution.next, hp]
  simp [hover]

end

section

variable {w w₀ : Worker α} {x : Execution} {p : Execution.Progress} {step : Step}

theorem newsAt_eq (hc : Steadily c plan steps latency) (m : Moment) : c.setting.newsAt m = [] := by
  simp [Setting.newsAt, hc.news]

theorem asks_send (hc : Steadily c plan steps latency) (h : Busy plan cap n queue s w₀)
    (hw : w.edition = some s.edition) (hx : x.deadline = some c.deadline) (hstep : IsPlain step)
    (hp : ∀ r ∈ p.done, KnownStep r) (request : Request) :
    (s.send c 0 w ⟨s.edition, 0⟩ request (.step x p step)).now = s.now ∧
      Asks c plan latency cap n p.left queue
        (s.send c 0 w ⟨s.edition, 0⟩ request (.step x p step)) := by
  have hanswer : c.setting.client s.sent request = ⟨latency, .ok (.ok ⟨200, [], []⟩)⟩ := by
    rw [hc.client, steady]
  rw [State.send, newsAt_eq hc, hanswer]
  refine ⟨rfl, ?_⟩
  constructor
  case fares => exact h.fares.of_eq rfl rfl rfl rfl rfl
  case ready => exact h.ready
  case timers =>
    show Timer.insert _ s.timers = _
    rw [h.timers]
    rfl
  case worker =>
    let w' : Worker α := { w with
      phase := .sending ⟨s.edition, 0⟩ (.step x p step) s.now ⟨latency, .ok (.ok ⟨200, [], []⟩)⟩ }
    refine ⟨w', x, p, step, ?_, hw, rfl, hx, hstep, rfl, hp⟩
    show s.workers.set 0 w' = [w']
    rw [h.workers]
    rfl

theorem receive_step (reply : Reply) (sentAt : Int) :
    s.receive c w (.step x p step) sentAt ⟨latency, .ok reply⟩ =
      (.ofDemand x s.now (x.resume p step reply sentAt s.now (s.draw c).1).1,
        (s.draw c).2.say ((x.resume p step reply sentAt s.now (s.draw c).1).2.map
          Notice.warning)) := rfl

theorem poised_complete (hpercent : plan.sampling < 100) (h : Busy plan cap n [] s w)
    (jar : CookieJar) {r : ScenarioResult} (hr : (Work.scenario r).Sound) (hs : r.success = true) :
    (s.complete c 0 { w with jar } ⟨s.edition, 0⟩ (.scenario r)).now = s.now ∧
      Poised plan cap (n + 1) [] (s.complete c 0 { w with jar } ⟨s.edition, 0⟩ (.scenario r)) := by
  obtain ⟨ms, hms⟩ := h.fares.sampled
  have hsampled :=
    sampled_ofWork (a := .ofRecorder s.recorder w.reported) hpercent rfl hms s.now 0 hr
  have htrouble :=
    trouble_ofWork (a := .ofRecorder s.recorder w.reported) rfl s.now plan.sampling 0 hr
  have hplan : s.edition.plan = plan := h.fares.current
  rw [complete, hplan]
  dsimp only
  generalize (Account.ofRecorder s.recorder w.reported).ofWork s.now plan.sampling 0 (.scenario r) =
    a at hsampled htrouble ⊢
  rw [htrouble]
  dsimp only
  rw [finishUnit, if_pos rfl]
  have hunits {s' : State α} (hj : s'.journal = .ended 0 s.now ⟨s.edition, 0⟩ (.scenario r) ::
      s.journal) : s'.units = s.units ++ [.scenario r] := by
    rw [units, hj]
    exact List.reverse_cons
  obtain ⟨hsource, hactive, hwatchman⟩ := h.fares.unwatched
  refine ⟨rfl, ⟨h.fares.current, ?_, ?_, ⟨_, hsampled⟩, hsource, hactive, hwatchman⟩, ?_, h.timers,
    ?_⟩
  · rw [hunits rfl, List.length_append, h.fares.units]
    rfl
  · rw [hunits rfl]
    exact List.forall_mem_append.mpr ⟨h.fares.succeeds, by simpa [Work.succeeds] using hs⟩
  · show s.ready ++ _ = _
    rw [h.ready]
    rfl
  · let w' : Worker α := { w with jar, reported := a.reported }
    refine ⟨w'.rest ⟨s.edition, 0⟩ (.scenario r) s.now, ?_, h.edition, rfl⟩
    show s.workers.set 0 _ = _
    rw [h.workers]
    rfl

variable [Scalar α]

theorem step_of_timer {time : Int} {a : Actor} (hready : s.ready = [])
    (ht : s.timers = [⟨time, a⟩]) :
    s.step c = some (({ s with now := max s.now time, timers := [] } : State α).resume c a) := by
  unfold State.step
  split
  · next h => simp [hready] at h
  · next h =>
    obtain ⟨rfl, rfl⟩ := List.cons.inj (ht.symm.trans h)
    rfl
  · next h => simp [ht] at h

theorem step_of_ready {task : Task} {rest : List Task} (hready : s.ready = task :: rest) :
    s.step c = some (({ s with ready := rest } : State α).perform c task) := by
  unfold State.step
  split
  · next h =>
    obtain ⟨rfl, rfl⟩ := List.cons.inj (hready.symm.trans h)
    rfl
  · next h _ => simp [hready] at h
  · next h _ => simp [hready] at h

theorem resume_worker (hw : s.workers = [w]) : s.resume c (.worker 0) = s.resumeWorker c 0 w := by
  rw [State.resume, hw]
  rfl

theorem exists_answered {left : List Step} (h : Asks c plan latency cap n left [] s) :
    ∃ s₁ w x p, Busy plan cap n [] s₁ w ∧ s₁.now = s.now + latency ∧
      s.step c = some (s₁.carryOut c 0 w ⟨s₁.edition, 0⟩ (.ofDemand x s₁.now (x.next p s₁.now))) ∧
      x.deadline = some c.deadline ∧ p.left = left ∧ ∀ r ∈ p.done, KnownStep r := by
  obtain ⟨w, x, p, step, hworkers, hw, hphase, hx, hstep, hleft, hp⟩ := h.worker
  let s₀ : State α := { s with now := max s.now (s.now + latency), timers := [] }
  have hnow : s₀.now = s.now + latency := max_eq_right (by omega)
  have hworkers₀ : s₀.workers = [w] := hworkers
  obtain ⟨p', lines, hresume, hleft', hp'⟩ :=
    exists_resume_eq x hstep hp s.now s₀.now (s₀.draw c).1
  refine ⟨(s₀.draw c).2.say (lines.map Notice.warning), w, x, p', ?_, hnow, ?_, hx,
    hleft'.trans hleft, hp'⟩
  · exact ⟨h.fares.of_eq rfl rfl rfl rfl rfl, h.ready, rfl, hworkers, hw⟩
  · rw [step_of_timer h.ready h.timers, resume_worker hworkers₀, resumeWorker, hphase]
    dsimp only
    rw [receive_step, hresume]
    rfl

theorem exists_step_asks (hc : Steadily c plan steps latency) {left : List Step}
    (h : Asks c plan latency cap n (step :: left) [] s) (hstep : IsPlain step)
    (hd : s.now + latency < c.deadline) :
    ∃ s', s.step c = some s' ∧ s'.now = s.now + latency ∧ Asks c plan latency cap n left [] s' := by
  obtain ⟨s₁, w, x, p, hbusy, hnow, hs, hx, hleft, hp⟩ := exists_answered h
  rw [← hnow] at hd
  rw [next_cons hx hd hleft] at hs
  obtain ⟨hsent, hasks⟩ := asks_send (p := { p with left }) hc hbusy hbusy.edition hx hstep hp _
  exact ⟨_, hs, hsent.trans hnow, hasks⟩

theorem exists_opens_eq (hc : Steadily c plan (step :: steps) latency) {now : Int}
    {jar : CookieJar} {e : Edition α} (he : e.plan = plan) (hd : now < c.deadline) {act : Act}
    (h : Opens c now jar e act) : ∃ request x p, act = .send request (.step x p step) ∧
      x.deadline = some c.deadline ∧ p.left = steps ∧ ∀ r ∈ p.done, KnownStep r := by
  obtain ⟨selector, hselector, hsteps⟩ := hc.selector
  rw [← he] at hselector
  cases h with
  | @scenario selector' h random row x hx hrow =>
    obtain rfl := Option.some.inj (hselector.symm.trans h)
    have hleft := hsteps _ (List.get_mem _ ⟨_, selector.indexAt_lt (Selector.point random)⟩)
    have hdeadline : x.deadline = some c.deadline := by rw [hx]
    have hstarted : x.startedAt = now := by rw [hx]
    let p : Execution.Progress :=
      ⟨Variables.load [] row, jar, (selector.selectAt (Selector.point random)).steps, []⟩
    refine ⟨x.request step p, x, { p with left := steps }, ?_, hdeadline, rfl, by simp [p]⟩
    rw [Execution.start, hstarted, next_cons hdeadline hd hleft]
    rfl
  | bare h ht => simp [hselector] at h
  | nothing h ht => simp [hselector] at h

omit [Scalar α] in
theorem watchman_deal (s : State α) (key : Nat × Nat) (table : Option Table) :
    (s.deal key table).2.watchman = s.watchman := by
  cases table <;> rfl

theorem watchman_beginUnit (c : Course α) (s : State α) (w : Worker α) (e : Edition α) :
    (s.beginUnit c w e).2.watchman = s.watchman := by
  unfold beginUnit
  split
  · exact watchman_deal (s.draw c).2 _ _
  · rfl
  · rfl

theorem exists_step_poised (hc : Steadily c plan (step :: steps) latency)
    (h : Poised plan cap n queue s) (hd : s.now < c.deadline) :
    ∃ s', s.step c = some s' ∧ s'.now = s.now ∧ Asks c plan latency cap n steps queue s' := by
  obtain ⟨w, hworkers, hw, hphase⟩ := h.worker
  have hplan : s.edition.plan = plan := h.fares.current
  let s₀ : State α := { s with ready := queue }
  have hworkers₀ : s₀.workers = [w] := hworkers
  have hrefresh : s₀.refresh 0 w.edition = (s.edition, []) := by
    rw [hw, State.refresh]
    exact if_pos rfl
  have hdelay : Pacing.delay? (s₀.rate c s.edition) c.workers = some 0 := by
    rw [State.rate, hplan, hc.load]
    rfl
  have hstep : s.step c = some (s₀.turn c 0 w) := by
    rw [step_of_ready h.ready, State.perform, resume_worker hworkers₀, resumeWorker, hphase]
  rw [turn, if_pos hd, hrefresh] at hstep
  dsimp only at hstep
  rw [hdelay] at hstep
  let s₁ : State α := (s₀.say []).note (.paced 0 s₀.now s.edition (some 0))
  let w₁ : Worker α := { w with edition := some s.edition }
  obtain ⟨hopens, haside⟩ := beginUnit_opens (c := c) (s := s₁) (w := w₁) s.edition
  change s.step c = some ((s₁.beginUnit c w₁ s.edition).2.carryOut c 0 w₁ ⟨s.edition, 0⟩
    (s₁.beginUnit c w₁ s.edition).1) at hstep
  have hwatch := watch_beginUnit c s₁ w₁ s.edition
  have hwatchman := watchman_beginUnit c s₁ w₁ s.edition
  generalize (s₁.beginUnit c w₁ s.edition).2 = s₂ at hstep haside hwatch hwatchman
  generalize (s₁.beginUnit c w₁ s.edition).1 = act at hstep hopens
  have hedition : s.edition = s₂.edition := by
    rw [State.edition, State.edition, haside.channel]
    rfl
  have hunits : s₂.units = s.units := by
    rw [units, haside.journal]
    rfl
  have hbusy : Busy plan cap n queue s₂ w :=
    ⟨h.fares.of_eq haside.channel haside.recorder hunits hwatch hwatchman, haside.ready,
      haside.timers.trans h.timers, haside.workers.trans hworkers, hedition ▸ hw⟩
  obtain ⟨request, x, p, rfl, hx, hleft, hp⟩ := exists_opens_eq hc hplan hd hopens
  rw [hedition] at hstep
  obtain ⟨hsent, hasks⟩ := asks_send (w := w₁) hc hbusy (congrArg some hedition) hx
    (hc.plain step List.mem_cons_self) hp request
  exact ⟨_, hstep, hsent.trans haside.now, hleft ▸ hasks⟩

theorem exists_step_last (hpercent : plan.sampling < 100) (h : Asks c plan latency cap n [] [] s) :
    ∃ s', s.step c = some s' ∧ s'.now = s.now + latency ∧ Poised plan cap (n + 1) [] s' := by
  obtain ⟨s₁, w, x, p, hbusy, hnow, hs, -, hleft, hp⟩ := exists_answered h
  rw [Execution.next, hleft] at hs
  have hsound : (Work.scenario (x.result .success p s₁.now)).Sound :=
    fun r hr => hp r (List.mem_reverse.mp hr)
  obtain ⟨hsame, hpoised⟩ := poised_complete hpercent hbusy p.jar hsound rfl
  exact ⟨_, hs, hsame.trans hnow, hpoised⟩

variable {channel : Channel (Plan α) Unit} {r : Recorder} {i : Nat}

theorem exists_poised_of_asks (hc : Steadily c plan steps latency) (hpercent : plan.sampling < 100)
    {left : List Step} (hleft : ∀ step ∈ left, IsPlain step) (hs : Reachable c channel r s)
    (h : Asks c plan latency cap n left [] s)
    (hd : s.now + ((left.length + 1) * latency : Nat) < c.deadline) :
    ∃ s', Reachable c channel r s' ∧ s'.now = s.now + ((left.length + 1) * latency : Nat) ∧
      Poised plan cap (n + 1) [] s' := by
  induction left generalizing s with
  | nil =>
    obtain ⟨s', hstep, hnow, hpoised⟩ := exists_step_last hpercent h
    exact ⟨s', hs.step hstep, by simpa using hnow, hpoised⟩
  | cons step left ih =>
    obtain ⟨hstep, hleft⟩ := List.forall_mem_cons.mp hleft
    have htime : ((List.length (step :: left) + 1) * latency : Nat) =
        (latency : Int) + ((left.length + 1) * latency : Nat) := by
      rw [List.length_cons]
      push_cast
      ring
    rw [htime] at hd ⊢
    obtain ⟨s₁, hs₁, hnow, hasks⟩ := exists_step_asks hc h hstep (by omega)
    obtain ⟨s', hs', hnow', hpoised⟩ := ih hleft (hs.step hs₁) hasks (by omega)
    exact ⟨s', hs', by omega, hpoised⟩

theorem exists_poised_add (hc : Steadily c plan steps latency) (hsteps : steps ≠ [])
    (hpercent : plan.sampling < 100) (hs : Reachable c channel r s) (h : Poised plan cap n [] s)
    (k : Nat) (hd : s.now + (k * (steps.length * latency) : Nat) < c.deadline) :
    ∃ s', Reachable c channel r s' ∧ s'.now = s.now + (k * (steps.length * latency) : Nat) ∧
      Poised plan cap (n + k) [] s' := by
  obtain ⟨step, steps, rfl⟩ := List.exists_cons_of_ne_nil hsteps
  induction k with
  | zero => exact ⟨s, hs, by simp, h⟩
  | succ k ih =>
    have htime : ((k + 1) * ((step :: steps).length * latency) : Nat) =
        ((k * ((step :: steps).length * latency) : Nat) : Int) +
          ((steps.length + 1) * latency : Nat) := by
      rw [List.length_cons]
      push_cast
      ring
    rw [htime] at hd ⊢
    obtain ⟨s₁, hs₁, hnow₁, hpoised₁⟩ := ih (by omega)
    obtain ⟨s₂, hs₂, hnow₂, hasks⟩ := exists_step_poised hc hpoised₁ (by omega)
    obtain ⟨-, hleft⟩ := List.forall_mem_cons.mp hc.plain
    obtain ⟨s', hs', hnow', hpoised⟩ :=
      exists_poised_of_asks hc hpercent hleft (hs₁.step hs₂) hasks (by omega)
    exact ⟨s', hs', by omega, hpoised⟩

theorem Unwatched.ensureBegun (h : Unwatched s) : s.watch.ensureBegun.1.source = none ∧
    s.watch.ensureBegun.1.state.active = false := by
  rw [GuardWatch.ensureBegun, h.active]
  refine ⟨h.source, ?_⟩
  change (Guard.begin _ (s.watch.source.bind _) _).1.active = false
  rw [GuardWatch.state_begin, h.source]
  rfl

theorem asks_resumeGuard {left : List Step} (h : Asks c plan latency cap n left queue s) :
    (s.resumeGuard c).now = s.now ∧ Asks c plan latency cap n left queue (s.resumeGuard c) := by
  have hunwatched := h.fares.unwatched
  rw [resumeGuard]
  cases hw : s.watchman with
  | fresh =>
    obtain ⟨hsource, hactive⟩ := hunwatched.ensureBegun
    dsimp only
    rw [beginWatch]
    dsimp only [State.say]
    rw [if_neg (by simp [hactive])]
    exact ⟨rfl, { h.fares with unwatched := ⟨hsource, hactive, by simp⟩ }, h.ready, h.timers,
      h.worker⟩
  | waiting => exact absurd hw hunwatched.watchman
  | ended => exact ⟨rfl, h⟩

omit [Scalar α] in
theorem pauseUntil_of_le {w : Worker α} {time : Int} (h : time ≤ s.now) :
    s.pauseUntil i w time =
      (s.setWorker i { w with phase := .pausing }).hurry (.resume (.worker i)) :=
  if_pos h

theorem exists_step_start (hc : Steadily c channel.current steps latency)
    (hon : channel.current.percentiles = true) (cap : Nat) (listening : Bool) (begun : Int) :
    ∃ s', (c.start channel (.create cap listening begun)).step c = some s' ∧
      s'.now = c.startedAt ∧ Poised channel.current cap 0 [.resume .guard] s' := by
  let r : Recorder := .create cap listening begun
  have hready : (c.start channel r).ready = [.resume (.worker 0), .resume .guard] := by
    simp [Course.start, hc.workers]
  let s₀ : State α := { c.start channel r with ready := [.resume .guard] }
  have hworkers : s₀.workers = [.fresh c.startedAt] := by
    simp [s₀, Course.start, hc.workers]
  have hfirst : firstFire c 0 s₀.edition = c.startedAt := by
    have hload : s₀.edition.plan.load = .concurrent := hc.load
    rw [firstFire, hload]
    simp [LoadModel.rate, Pacing.delay?, Pacing.stagger]
  have hstep : (c.start channel r).step c = some (s₀.beginWork c 0 (.fresh c.startedAt)) := by
    rw [step_of_ready hready, State.perform, resume_worker hworkers]
    rfl
  have hdue : min c.startedAt c.deadline ≤ s₀.now := min_le_left _ _
  rw [beginWork, hfirst, pauseUntil_of_le (s := s₀.note _) hdue] at hstep
  refine ⟨_, hstep, rfl, ?_⟩
  constructor
  case fares =>
    have hsource : s₀.watch.source = none := hc.memory
    exact ⟨rfl, rfl, fun work h => absurd h List.not_mem_nil, ⟨[], .start hon _ _ _ _ _⟩,
      hsource, rfl, Watchman.noConfusion⟩
  case ready => rfl
  case timers => rfl
  case worker => exact ⟨_, congrArg (List.set · 0 _) hworkers, rfl, rfl⟩

theorem exists_poised (hc : Steadily c channel.current steps latency) (hsteps : steps ≠ [])
    (hpercent : channel.current.sampling < 100) (hon : channel.current.percentiles = true)
    (cap : Nat) (listening : Bool) (begun : Int) (n : Nat)
    (hd : c.startedAt + ((n + 1) * (steps.length * latency) : Nat) < c.deadline) :
    ∃ s, Reachable c channel (.create cap listening begun) s ∧
      Poised channel.current cap (n + 1) [] s := by
  obtain ⟨step, left, rfl⟩ := List.exists_cons_of_ne_nil hsteps
  obtain ⟨-, hleft⟩ := List.forall_mem_cons.mp hc.plain
  rw [Nat.succ_mul, List.length_cons] at hd
  obtain ⟨s₁, hs₁, hnow₁, hpoised₁⟩ := exists_step_start hc hon cap listening begun
  obtain ⟨s₂, hs₂, hnow₂, hasks₂⟩ := exists_step_poised hc hpoised₁ (by omega)
  obtain ⟨hnow₃, hasks₃⟩ := asks_resumeGuard (s := { s₂ with ready := [] })
    ⟨hasks₂.fares.of_eq rfl rfl rfl rfl rfl, rfl, hasks₂.timers, hasks₂.worker⟩
  have hs₃ := ((Reachable.start.step hs₁).step hs₂).step (step_of_ready hasks₂.ready)
  obtain ⟨s₄, hs₄, hnow₄, hpoised₄⟩ := exists_poised_of_asks hc hpercent hleft hs₃ hasks₃ (by
    change (resumeGuard c _).now + _ < _
    rw [hnow₃, hnow₂, hnow₁]
    omega)
  obtain ⟨s, hs, -, hpoised⟩ := exists_poised_add hc hsteps hpercent hs₄ hpoised₄ n (by
    change s₄.now = (resumeGuard c _).now + _ at hnow₄
    rw [hnow₄, hnow₃, hnow₂, hnow₁, List.length_cons]
    omega)
  rw [Nat.zero_add, Nat.add_comm] at hpoised
  exact ⟨s, hs, hpoised⟩

end

end LoadGenerator.Run
