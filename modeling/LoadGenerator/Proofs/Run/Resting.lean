import LoadGenerator.Proofs.Run.Deadline
import LoadGenerator.Proofs.Run.Waking

namespace LoadGenerator

def Plan.steps {α : Type} (p : Plan α) : List Step := p.scenarios.flatMap (·.steps)

namespace Run

open Http State

variable {α : Type}

def Purpose.From (steps : List Step) : Purpose → Prop
  | .bare _ => True
  | .step _ p asked => asked ∈ steps ∧ p.left ⊆ steps

def Phase.From : Phase α → Prop
  | .sending job purpose _ _ => purpose.From job.edition.plan.steps
  | .thinking job _ p => p.left ⊆ job.edition.plan.steps
  | _ => True

/-- Some step lets its users think for so long. -/
def ThinksFor (steps : List Step) (ms : Int) : Prop :=
  ∃ step ∈ steps, ∃ random, step.thinkTime.map (·.choose random) = some ms

def Act.From (steps : List Step) : Act → Prop
  | .send _ purpose => purpose.From steps
  | .think ms _ p => p.left ⊆ steps ∧ ThinksFor steps ms
  | _ => True

/-- The last that worker `i` has done is to send a request, and that before the deadline. -/
def SentLast (c : Course α) (i : Nat) (job : Job α) (sentAt : Int) (past : List (Event α)) : Prop :=
  sentAt < c.deadline ∧ ∃ request, past.head? = some (.sent i sentAt job.edition request)

/-- Worker `i` is in the middle of a unit, and goes on at this time: with the answer to the request
that it sent last, or after the think time that followed the answer. -/
inductive Until (c : Course α) (i : Nat) (now : Int) (w : Worker α) (past : List (Event α)) :
    Int → Prop
  | answer {job : Job α} {purpose : Purpose} {sentAt : Int} {answer : Answer}
      (h : w.phase = .sending job purpose sentAt answer) (hs : SentLast c i job sentAt past) :
      Until c i now w past (sentAt + answer.latency)
  | thought {job : Job α} {x : Execution} {p : Execution.Progress} (h : w.phase = .thinking job x p)
      {sentAt since ms : Int} (hs : SentLast c i job sentAt past) (hsince : since ≤ now)
      (hms : ThinksFor job.edition.plan.steps ms) :
      Until c i now w past (Execution.wakeTime since ms)

structure Rests (c : Course α) (i : Nat) (now : Int) (w : Worker α) (wait : Wait)
    (past : List (Event α)) : Prop where
  within : w.phase.Within c.deadline
  plan : w.phase.From
  own : w.job? = none → ∀ time ∈ wait.alarms, time ≤ c.deadline
  busy : ∀ job, w.job? = some job →
    ∃ time, Until c i now w past time ∧ ∀ t ∈ wait.alarms, t = time

section

variable {steps : List Step} {x : Execution} {p : Execution.Progress} {now : Int} {w : Worker α}
  {job : Job α} {act : Act}

theorem from_next (h : p.left ⊆ steps) : (Act.ofDemand x now (x.next p now)).From steps := by
  rw [Execution.next]
  cases hl : p.left with
  | nil => trivial
  | cons step left =>
    by_cases hover : x.isOver p now = true
    · simp only [hover, if_true]
      trivial
    · simp only [hover, Bool.false_eq_true, if_false]
      rw [hl] at h
      exact List.cons_subset.mp h

theorem from_resume {step : Step} (hstep : step ∈ steps) (h : p.left ⊆ steps) (reply : Reply)
    (sentAt : Int) (random : Nat) :
    (Act.ofDemand x now (x.resume p step reply sentAt now random).1).From steps := by
  have hleft : (Execution.receive p step reply (millisBetween sentAt now)).1.left ⊆ steps := by
    rw [Execution.left_receive]
    exact h
  rw [Execution.resume]
  dsimp only
  split
  · trivial
  · split
    · next ms hms =>
      split
      · exact ⟨hleft, step, hstep, random, hms⟩
      · exact from_next hleft
    · exact from_next hleft

theorem from_of_goesOn (h : GoesOn now w job act) (hw : w.phase.From) :
    act.From job.edition.plan.steps := by
  cases h with
  | broken hp ha => trivial
  | bare hp ha => trivial
  | step hp ha random =>
    rw [hp] at hw
    exact from_resume hw.1 hw.2 _ _ _
  | thought hp =>
    rw [hp] at hw
    exact from_next hw

theorem steps_selectAt_subset [Scalar α] {plan : Plan α} {selector : Selector α}
    (h : plan.selector = some selector) (u : α) : (selector.selectAt u).steps ⊆ plan.steps := by
  have hmem : selector.selectAt u ∈ plan.scenarios := by
    rw [Plan.scenarios, h]
    exact List.get_mem _ _
  exact fun step hstep => List.mem_flatMap.mpr ⟨_, hmem, hstep⟩

theorem from_of_opens [Scalar α] {c : Course α} {jar : CookieJar} {e : Edition α}
    (h : Opens c now jar e act) : act.From e.plan.steps := by
  cases h with
  | scenario h random row hx =>
    subst hx
    exact from_next (steps_selectAt_subset h _)
  | bare h ht => trivial
  | nothing h ht => trivial

end

section

variable {c : Course α} {i : Nat} {now now' : Int} {s : State α} {w : Worker α} {wait wait' : Wait}
  {past : List (Event α)} {job : Job α} {act : Act}

theorem mem_alarms_pause {time t : Int} (h : t ∈ (Wait.pause now time).alarms) : t = time := by
  unfold Wait.pause at h
  split at h
  · cases h
  · exact List.mem_singleton.mp h

theorem Until.later {time : Int} (h : Until c i now w past time) (hn : now ≤ now') :
    Until c i now' w past time := by
  cases h with
  | answer h hs => exact .answer h hs
  | thought h hs hsince hms => exact .thought h hs (hsince.trans hn) hms

theorem Rests.later (h : Rests c i now w wait past) (hn : now ≤ now')
    (ha : wait'.alarms ⊆ wait.alarms) : Rests c i now' w wait' past where
  within := h.within
  plan := h.plan
  own hj time ht := h.own hj time (ha ht)
  busy job hj := by
    obtain ⟨time, hu, hall⟩ := h.busy job hj
    exact ⟨time, hu.later hn, fun t ht => hall t (ha ht)⟩

theorem Until.sentLast {time : Int} (h : Until c i now w past time) (hj : w.job? = some job) :
    ∃ sentAt, SentLast c i job sentAt past := by
  cases h with
  | answer h hs =>
    simp only [Worker.job?, h, Option.some.injEq] at hj
    exact ⟨_, hj ▸ hs⟩
  | thought h hs =>
    simp only [Worker.job?, h, Option.some.injEq] at hj
    exact ⟨_, hj ▸ hs⟩

theorem rests_trace (h : act.Within c.deadline s.now) (hp : act.From job.edition.plan.steps)
    (hthink : ∀ ms x p, act = .think ms x p → ∃ sentAt, SentLast c i job sentAt past) :
    Rests c i s.now (act.trace c i s w job).worker (act.trace c i s w job).wait
      ((act.trace c i s w job).events ++ past) := by
  cases act with
  | send request purpose =>
    refine ⟨h.2, hp, by simp [Act.trace, Worker.job?], fun job' hj => ?_⟩
    exact ⟨_, .answer rfl ⟨h.1, request, rfl⟩, by simp [Act.trace, Wait.alarms]⟩
  | think ms x p =>
    refine ⟨h, hp.1, by simp [Act.trace, Worker.job?], fun job' hj => ?_⟩
    obtain ⟨sentAt, hs⟩ := hthink ms x p rfl
    exact ⟨_, .thought rfl hs (Int.le_refl _) hp.2, by simp [Act.trace, Wait.alarms]⟩
  | stop message =>
    exact ⟨trivial, trivial, by simp [Act.trace, Wait.alarms], by simp [Act.trace, Worker.job?]⟩
  | complete jar work =>
    rw [Act.trace]
    dsimp only
    split
    · exact ⟨trivial, trivial, by simp [Wait.alarms], by simp [Worker.job?]⟩
    · refine ⟨trivial, trivial, fun _ time ht => ?_, by simp [Worker.job?, Worker.rest]⟩
      rw [mem_alarms_pause ht]
      exact Int.min_le_right _ _

variable [Scalar α] {t : Trace α}

theorem rests_of_moves (h : Rests c i s.now w wait past) (hm : Moves c i s w t) :
    Rests c i s.now t.worker t.wait (t.events ++ past) := by
  cases hm with
  | begins hp hf =>
    refine ⟨trivial, trivial, fun _ time ht => ?_, by simp [Worker.job?]⟩
    rw [mem_alarms_pause ht]
    exact Int.min_le_right _ _
  | leaves hw hd => exact ⟨trivial, trivial, by simp [Wait.alarms], by simp [Worker.job?]⟩
  | parks hw hd he hp =>
    refine ⟨trivial, trivial, fun _ time ht => ?_, by simp [Worker.job?]⟩
    rw [List.mem_singleton.mp ht]
    exact Int.min_le_right _ _
  | starts hw hd he hp ha =>
    rw [Trace.after, List.append_assoc]
    refine rests_trace (within_of_opens ha hd) (from_of_opens ha) fun ms x p hact => ?_
    exact absurd hact (ne_think_of_opens ha ms x p)
  | @goesOn job act hg =>
    refine rests_trace (within_of_goesOn hg h.within) (from_of_goesOn hg h.plan) fun ms x p hact => ?_
    obtain ⟨time, hu, -⟩ := h.busy job hg.job
    exact hu.sentLast hg.job

end

variable [Scalar α] {c : Course α} {channel : Channel (Plan α) Unit} {r : Metrics.Recorder}
  {s s' : State α} {m m' : Scene α} {i : Nat} {w : Worker α} {wait : Wait}

theorem rests_of_affects (h : Rests c i s.now w wait (s.past i)) (hn : s.now ≤ s'.now)
    (ha : Affects c s s' i w wait) :
    ∃ w' wait', Standing s' i w' wait' ∧ Rests c i s'.now w' wait' (s'.past i) := by
  cases ha with
  | nothing hst hp => exact ⟨w, wait, hst, hp ▸ h.later hn (List.Subset.refl _)⟩
  | expires ht hst hp => exact ⟨w, .turn, hst, hp ▸ h.later hn (List.nil_subset _)⟩
  | woken hw hst hp => exact ⟨w, .turn, hst, hp ▸ h.later hn (List.nil_subset _)⟩
  | @goesOn s₁ t ht hnow hm hl =>
    refine ⟨t.worker, t.wait, hl.standing, ?_⟩
    rw [hl.past, Local.past_turn ht, hl.only.now]
    exact rests_of_moves (hnow ▸ h) hm

theorem exists_rests (h : Interleaved c channel r m) (hw : m.state.workers[i]? = some w) :
    ∃ wait, Standing m.state i w wait ∧ Rests c i m.state.now w wait (m.state.past i) := by
  induction h generalizing w with
  | start =>
    obtain ⟨hi, rfl⟩ : i < c.workers ∧ Worker.fresh c.startedAt = w := by
      simpa [Course.start, List.getElem?_replicate] using hw
    refine ⟨.turn, Local.standing_start hi, trivial, trivial, by simp [Wait.alarms], ?_⟩
    simp [Worker.job?, Worker.fresh]
  | @step m m' h hs ih =>
    have hm := attuned h
    have hi : i < m.state.workers.length :=
      length_of_happens hm hs ▸ (List.getElem?_eq_some_iff.mp hw).1
    obtain ⟨wait, hst, hrest⟩ := ih (List.getElem?_eq_getElem hi)
    obtain ⟨w', wait', hst', hrest'⟩ :=
      rests_of_affects hrest (now_le_of_happens hm hs) (affects hm hs hst)
    cases hst'.worker.symm.trans hw
    exact ⟨wait', hst', hrest'⟩

/-- How long worker `i` rests, which stands as `w`. -/
structure RestsInTime (c : Course α) (s : State α) (i : Nat) (w : Worker α) : Prop where
  own : w.job? = none → ∀ time ∈ s.alarms (.worker i), time ≤ c.deadline
  late : ∀ time ∈ s.alarms (.worker i), c.deadline < time → Until c i s.now w (s.past i) time

omit [Scalar α] in
theorem Rests.inTime (h : Rests c i s.now w wait (s.past i)) (hst : Standing s i w wait) :
    RestsInTime c s i w where
  own hj := hst.alarms ▸ h.own hj
  late time ht hd := by
    rw [hst.alarms] at ht
    cases hj : w.job? with
    | none => exact absurd (h.own hj time ht) (not_le.mpr hd)
    | some job =>
      obtain ⟨time', hu, hall⟩ := h.busy job hj
      exact hall time ht ▸ hu

theorem job?_of_deadline_lt (hs : Reachable c channel r s) (hw : s.workers[i]? = some w)
    (hd : c.deadline < s.now) {time : Int} (ht : time ∈ s.alarms (.worker i)) :
    ∃ job, w.job? = some job := by
  obtain ⟨wait, hst⟩ := ((local_onTime c channel r).holds hs).stands i w hw
  obtain ⟨bs, -, -, hstage⟩ := hst.holds
  rw [hst.standing.alarms] at ht
  cases hstage with
  | fresh h hn => cases ht
  | due h hb hn hd => cases ht
  | pausing h hb hn => omega
  | parked h he hle hn hwait => omega
  | busy h hn hs => exact ⟨_, h⟩
  | finished h hb => cases ht
  | stopped h => cases ht

/-- In every order of publishes, wake-ups, timers and turns, no worker rests past the deadline,
unless it waits for an answer or thinks about one. On a clock of its own, that is all that can
be going on after the deadline. -/
theorem rests_in_time (h : Interleaved c channel r m) (hw : m.state.workers[i]? = some w) :
    RestsInTime c m.state i w ∧
      (Reachable c channel r m.state → c.deadline < m.state.now →
        ∀ time ∈ m.state.alarms (.worker i), Until c i m.state.now w (m.state.past i) time) := by
  obtain ⟨wait, hst, hrest⟩ := exists_rests h hw
  refine ⟨hrest.inTime hst, fun hs hd time ht => ?_⟩
  obtain ⟨job, hj⟩ := job?_of_deadline_lt hs hw hd ht
  obtain ⟨time', hu, hall⟩ := hrest.busy job hj
  rw [hst.alarms] at ht
  exact hall time ht ▸ hu

def slow : Setting Rat := .ofClient (steady 1200000000)

theorem rests_in_time_slow : ∃ (s : State Rat) (w : Worker Rat), s.workers[0]? = some w ∧
    (Course.ofPlan slow visits 0).deadline < s.now ∧ s.alarms (.worker 0) = [1230000000] ∧
      RestsInTime (.ofPlan slow visits 0) s 0 w ∧
        Until (.ofPlan slow visits 0) 0 s.now w (s.past 0) 1230000000 := by
  have hs := reachable_stateAt slow (.ofPlan visits) (.create 1 false 0) 0 6
  have hlen : 0 < (stateAt slow (.ofPlan visits) (.create 1 false 0) 0 6).workers.length := by
    decide +kernel
  have hw := List.getElem?_eq_getElem hlen
  obtain ⟨hrest, hafter⟩ := rests_in_time hs.interleaved hw
  have hd : (Course.ofPlan slow visits 0).deadline <
      (stateAt slow (.ofPlan visits) (.create 1 false 0) 0 6).now := by decide +kernel
  have ha : (stateAt slow (.ofPlan visits) (.create 1 false 0) 0 6).alarms (.worker 0) =
      [1230000000] := by decide +kernel
  exact ⟨_, _, hw, hd, ha, hrest, hafter hs hd _ (by simp [ha])⟩

def Worker.isThinking (w : Worker Rat) : Bool :=
  match w.phase with
  | .thinking _ _ _ => true
  | _ => false

/-- A worker that has its answer after the deadline thinks about it all the same. -/
theorem exists_thinking_after_deadline : ∃ (setting : Setting Rat) (channel : Channel (Plan Rat) Unit)
    (r : Metrics.Recorder) (s : State Rat) (w : Worker Rat),
    Reachable (.ofPlan setting channel.current 0) channel r s ∧ s.workers[0]? = some w ∧
      w.isThinking = true ∧ (Course.ofPlan setting channel.current 0).deadline < s.now ∧
        ∃ time ∈ s.alarms (.worker 0), s.now < time := by
  obtain ⟨w, hw, hp⟩ : ∃ w, (stateAt slow (.ofPlan visits) (.create 1 false 0) 0 6).workers[0]? =
      some w ∧ w.isThinking = true := (Option.any_eq_true Worker.isThinking _).mp (by decide +kernel)
  refine ⟨slow, .ofPlan visits, .create 1 false 0, _, w, reachable_stateAt _ _ _ _ 6, hw, hp, ?_, ?_⟩
  · decide +kernel
  · decide +kernel

end Run

end LoadGenerator
