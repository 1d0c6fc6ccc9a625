import LoadGenerator.Proofs.Run.Tally
import LoadGenerator.Scalar.Rational

namespace LoadGenerator.Run

open Http Metrics State

variable {α : Type}

/-- From `r₀` on, the units of work `ws`, the newest first, have been entered. -/
def Entered (r₀ r : Recorder) (ws : List Work) : Prop :=
  ∃ log, log.map (·.1) = ws.reverse.flatMap Work.measurements ∧
    Ledger r₀ r log ws.length (ws.reverse.flatMap Work.outcomes) (ws.reverse.flatMap Work.results)

theorem works_deeds (s : State α) : works s.deeds = works s.journal := by
  rw [works, deeds, List.filterMap_filter, works]
  apply List.filterMap_congr
  intro e _
  cases e <;> rfl

theorem Entered.shed {r₀ r r' : Recorder} {ws : List Work} (h : Entered r₀ r ws)
    (hs : Shed r r') : Entered r₀ r' ws := by
  obtain ⟨log, hlog, hl⟩ := h
  cases hs with
  | kept => exact ⟨log, hlog, hl⟩
  | rotated => exact ⟨log, hlog, hl.rotate⟩
  | disabled => exact ⟨log, hlog, hl.disableTracking.rotate⟩

theorem Entered.work {r₀ : Recorder} {a : Account} {ws : List Work} (ha : a.trouble = none)
    (h : Entered r₀ a.recorder ws) (now : Int) (percent worker : Nat) {work : Work}
    (hw : work.Sound) : Entered r₀ (a.ofWork now percent worker work).recorder (work :: ws) := by
  obtain ⟨log, hlog, hl⟩ := h
  obtain ⟨log', hlog', hl'⟩ := ledger_ofWork ha hl now percent worker hw
  refine ⟨log ++ log', ?_, ?_⟩
  · simp [hlog, hlog']
  · simpa using hl'

section

variable {c : Course α} {i : Nat} {s : State α} {w : Worker α} {job : Job α} {act : Act}
  {r₀ : Recorder} {past : List (Event α)}

theorem entered_trace (ha : act.Sound) (h : Entered r₀ s.recorder (works past)) :
    Entered r₀ (act.trace c i s w job).recorder
      (works ((act.trace c i s w job).events ++ past)) := by
  cases act with
  | send request purpose => exact h
  | think ms x p => exact h
  | stop message => exact ha.elim
  | complete jar work =>
    have htrouble := trouble_ofWork (a := .ofRecorder s.recorder w.reported) rfl s.now
      job.edition.plan.sampling i ha
    have hwork := Entered.work (a := .ofRecorder s.recorder w.reported) rfl h s.now
      job.edition.plan.sampling i ha
    rw [Act.trace]
    dsimp only
    rw [htrouble]
    exact hwork

variable [Scalar α]

theorem entered_of_moves {t : Trace α} (h : Entered r₀ s.recorder (works past))
    (hw : w.phase.Sound) (hm : Moves c i s w t)
    (he : ∀ w', AtHead s.now w w' → HasWork (taken s i w').plan) :
    Entered r₀ t.recorder (works (t.events ++ past)) := by
  cases hm with
  | begins hp hf => exact h
  | leaves hw' hd => exact h
  | parks hw' hd he' hp => exact h
  | @starts w' hw' hd e he' delayMs hp act ha =>
    obtain ⟨hsound, -⟩ := sound_of_opens ha (he' ▸ he w' hw')
    rw [Trace.after, List.append_assoc, List.singleton_append]
    exact entered_trace hsound h
  | goesOn hg => exact entered_trace (sound_of_goesOn hg hw).1 h

end

variable [Scalar α] {c : Course α} {channel : Channel (Plan α) Unit} {r : Recorder} {s s₁ : State α}

theorem entered_turn (hc : Faithful c.setting.client)
    (hp : ∀ plan ∈ c.plans channel.current, HasWork plan) (hs : Reachable c channel r s)
    {r₀ : Recorder} (h : Entered r₀ s.recorder (works s.deeds)) {a : Actor} (ht : Turn a s s₁) :
    Entered r₀ (s₁.resume c a).recorder (works (s₁.resume c a).deeds) := by
  rw [← ht.recorder, ← ht.deeds] at h
  cases a with
  | guard =>
    have hg := tends_resumeGuard c s₁
    rw [State.resume, hg.deeds]
    exact h.shed hg.shed
  | worker i =>
    cases hi : s.workers[i]? with
    | none =>
      rw [State.resume, ht.workers, hi]
      exact h
    | some w =>
      rw [State.resume, ht.workers, hi]
      obtain ⟨wait, hcount, -, hover, hst⟩ := ((local_counted (r := r) hc hp).holds hs).self ht hi
      obtain ⟨t, hm, hl⟩ := exists_leads_resumeWorker (c := c) hst hover
      dsimp only
      rw [hl.recorder, hl.deeds]
      exact entered_of_moves h hcount.holds.phase hm fun w' hw' => hp _ (taken_mem hs ht.channel hi hw')

/-- All along a run, the books hold what has been done. -/
theorem entered (hc : Faithful c.setting.client)
    (hp : ∀ plan ∈ c.plans channel.current, HasWork plan) (hr : r.totals = .zero)
    (hs : Reachable c channel r s) :
    Entered (c.start channel r).recorder s.recorder (works s.deeds) := by
  induction hs with
  | start => exact ⟨[], rfl, .fresh rfl hr⟩
  | @step s s' hs hstep ih =>
    have hh := (local_counted (r := r) hc hp).holds hs
    obtain ⟨a, s₁, ht, rfl⟩ | ⟨i, rest, hready, rfl⟩ := exists_turn_or_wake hh.inOrder hstep
    · exact entered_turn hc hp hs ih ht
    · -- a wake-up enters nothing
      obtain ⟨hj, hr⟩ := journal_wake ({ s with ready := rest } : State α) i
      rw [hr, State.deeds, hj]
      exact ih

section

omit [Scalar α]

theorem flatMap_past_perm_filter (s : State α) (n : Nat) :
    ((List.range n).flatMap s.past).Perm (s.journal.filter fun e => e.worker?.any (· < n)) := by
  induction n with
  | zero =>
    have hnone : s.journal.filter (fun e => e.worker?.any (· < 0)) = [] := by
      apply List.filter_eq_nil_iff.mpr
      intro e _
      cases e.worker? <;> simp
    rw [hnone]
    rfl
  | succ n ih =>
    -- the deeds of worker `n` are what is not done by those before it
    have hsplit := List.filter_append_perm (fun e => e.worker?.any (· < n))
      (s.journal.filter fun e => e.worker?.any (· < n + 1))
    rw [List.filter_filter, List.filter_filter] at hsplit
    rw [List.range_succ, List.flatMap_append, List.flatMap_singleton]
    refine (ih.append_right _).trans (List.Perm.trans (List.Perm.of_eq ?_) hsplit)
    congr 1
    · apply List.filter_congr
      intro e _
      cases e.worker? with
      | none => rfl
      | some i => simp; omega
    · apply List.filter_congr
      intro e _
      cases e.worker? with
      | none => rfl
      | some i =>
        rw [Bool.eq_iff_iff]
        simp only [Option.any_some, Bool.and_eq_true, Bool.not_eq_true', decide_eq_true_eq,
          decide_eq_false_iff_not, Option.some.injEq]
        omega

theorem flatMap_past_perm (hi : ∀ e ∈ s.journal, ∀ i, e.worker? = some i → i < s.workers.length) :
    ((List.range s.workers.length).flatMap s.past).Perm s.deeds := by
  refine (flatMap_past_perm_filter s _).trans (List.Perm.of_eq ?_)
  apply List.filter_congr
  intro e he
  cases hw : e.worker? with
  | none => rfl
  | some i => simpa using hi e he i hw

theorem flatMap_works_perm (hi : ∀ e ∈ s.journal, ∀ i, e.worker? = some i → i < s.workers.length) :
    ((List.range s.workers.length).flatMap fun i => works (s.past i)).Perm (works s.deeds) := by
  have h := (flatMap_past_perm hi).filterMap Event.work?
  rwa [List.filterMap_flatMap] at h

theorem sum_workers {f : Worker α → Nat} {g : List (Event α) → Nat}
    (h : ∀ i w, s.workers[i]? = some w → f w = g (s.past i)) :
    (s.workers.map f).sum = ((List.range s.workers.length).map fun i => g (s.past i)).sum := by
  congr 1
  apply List.ext_getElem (by simp)
  intro i hi _
  rw [List.getElem_map, List.getElem_map, List.getElem_range]
  exact h i _ (List.getElem?_eq_getElem (by simpa using hi))

end

/-- What the workers have counted together agrees with what has been done. -/
structure Summed (s : State α) (ws : List Work) : Prop where
  sound : ∀ work ∈ ws, work.Sound
  iterations : (s.workers.map (·.iterations)).sum = ws.length
  failures : (s.workers.map (·.failures)).sum = ws.countP (!·.ok)
  sent : s.deeds.countP Event.isSent = (ws.flatMap Work.outcomes).length
  begun : s.deeds.countP Event.begins = ws.length

omit [Scalar α] in
theorem summed_of_counted
    (hi : ∀ e ∈ s.journal, ∀ i, e.worker? = some i → i < s.workers.length)
    (h : ∀ i w, s.workers[i]? = some w →
      Counted w (s.past i) ∧ w.phase.made = 0 ∧ w.phase.underWay = 0) :
    Summed s (works s.deeds) := by
  have hp := flatMap_past_perm hi
  have hw := flatMap_works_perm hi
  have hget {i : Nat} (hr : i ∈ List.range s.workers.length) :
      ∃ w, Counted w (s.past i) ∧ w.phase.made = 0 ∧ w.phase.underWay = 0 :=
    ⟨_, h i _ (List.getElem?_eq_getElem (List.mem_range.mp hr))⟩
  constructor
  · intro work hwork
    obtain ⟨i, hr, hmem⟩ := List.mem_flatMap.mp (hw.mem_iff.mpr hwork)
    obtain ⟨w, hc, -⟩ := hget hr
    exact hc.tallied.sound work hmem
  · rw [sum_workers (g := fun past => (works past).length) fun i w hw => (h i w hw).1.tallied.iterations,
      ← hw.length_eq, List.length_flatMap]
  · rw [sum_workers (g := fun past => (works past).countP (!·.ok)) fun i w hw =>
      (h i w hw).1.tallied.failures, ← hw.countP_eq, List.countP_flatMap]
    rfl
  · rw [← hp.countP_eq, ← (hw.flatMap_right _).length_eq, List.countP_flatMap, List.flatMap_assoc,
      List.length_flatMap]
    congr 1
    apply List.map_congr_left
    intro i hr
    obtain ⟨w, hc, hmade, -⟩ := hget hr
    simpa [hmade, List.length_flatMap] using hc.tallied.sent
  · rw [← hp.countP_eq, ← hw.length_eq, List.countP_flatMap, List.length_flatMap]
    congr 1
    apply List.map_congr_left
    intro i hr
    obtain ⟨w, hc, -, hunder⟩ := hget hr
    simpa [hunder] using hc.tallied.begun

theorem summed_of_isOver (hc : Faithful c.setting.client)
    (hp : ∀ plan ∈ c.plans channel.current, HasWork plan) (hs : Reachable c channel r s)
    (hover : s.isOver = true) :
    (∀ w ∈ s.workers, w.isFinished = true) ∧ Summed s (works s.deeds) := by
  have hh := (local_counted (r := r) hc hp).holds hs
  have hend (i : Nat) (w : Worker α) (hw : s.workers[i]? = some w) :
      Counted w (s.past i) ∧ w.isFinished = true ∧ w.phase.made = 0 ∧ w.phase.underWay = 0 := by
    obtain ⟨hend, hcount⟩ := hh.isOver hover hw
    exact ⟨hcount, hcount.finished hend⟩
  refine ⟨fun w hw => ?_, summed_of_counted (fun e he i hi => ?_) fun i w hw => ?_⟩
  · obtain ⟨i, hi⟩ := List.getElem?_of_mem hw
    exact (hend i w hi).2.1
  · obtain ⟨w, wait, hst, -⟩ := hh.exists_stands he hi
    exact (List.getElem?_eq_some_iff.mp hst.standing.worker).1
  · obtain ⟨hcount, -, hidle⟩ := hend i w hw
    exact ⟨hcount, hidle⟩

omit [Scalar α] in
theorem length_requests (s : State α) : s.requests.length = s.deeds.countP Event.isSent := by
  rw [requests, List.length_filterMap_eq_countP, List.countP_reverse, deeds, List.countP_filter]
  apply List.countP_congr
  intro e _
  cases e <;> simp [Event.isSent, Event.worker?]

omit [Scalar α] in
theorem countP_begins (s : State α) :
    s.journal.countP Event.begins = s.deeds.countP Event.begins := by
  rw [deeds, List.countP_filter]
  apply List.countP_congr
  intro e _
  cases e <;> simp [Event.begins, Event.worker?]

def State.units (s : State α) : List Work := (works s.journal).reverse

/-- The numbers of an outcome agree with each other, and with the units of work of the run. All its
measurements have been taken, by a recorder that was `r₀` when the run began. -/
structure Balanced (r₀ : Recorder) (o : Outcome α) (ws : List Work) : Prop where
  units : o.summary.iterations = (executions ws).length + (bares ws).length
  throughput : o.recorder.throughput.count = o.summary.iterations
  sent : o.recorder.totals.requests = o.requests.length
  requests : o.recorder.totals.requests =
    (bares ws).length + ((executions ws).map (·.steps.length)).sum
  answers : (o.recorder.totals.statusCodes.map fun p => p.2).sum +
    o.recorder.totals.transportErrors = o.recorder.totals.requests
  executed : o.recorder.totals.scenarios = (executions ws).length
  verdicts : o.recorder.totals.scenarios = o.recorder.totals.successes +
    o.recorder.totals.failures + o.recorder.totals.interrupted
  failures : o.summary.failures =
    o.recorder.totals.failures + (bares ws).countP (·.category.isSome)
  measured : ∃ log, Recording r₀ log o.recorder ∧ log.map (·.1) = ws.flatMap Work.measurements ∧
    o.recorder.skipped = log.countP (·.2 = .skipped)

omit [Scalar α] in
theorem balanced_of_summed {r₀ : Recorder} (hskip : r₀.skipped = 0)
    (hdone : ∀ w ∈ s.workers, w.isFinished = true) (hsum : Summed s (works s.deeds))
    (he : Entered r₀ s.recorder (works s.deeds)) : Balanced r₀ (s.outcome c) s.units := by
  obtain ⟨log, hlog, hl⟩ := he
  rw [works_deeds] at hsum hlog hl
  have hsound : ∀ work ∈ s.units, work.Sound := fun work h => hsum.sound work (List.mem_reverse.mp h)
  have hworkers : s.workers.filter Worker.isFinished = s.workers := List.filter_eq_self.mpr hdone
  have hlen : (works s.journal).length = s.units.length := List.length_reverse.symm
  have hiter : (s.summary c).iterations = s.units.length := by
    rw [summary, hworkers, ← hlen, ← hsum.iterations, List.sum_eq_foldl, List.foldl_map]
  have hfail : (s.summary c).failures = s.units.countP (!·.ok) := by
    rw [summary, hworkers, units, List.countP_reverse, ← hsum.failures, List.sum_eq_foldl,
      List.foldl_map]
  have hsent : s.requests.length = (s.units.flatMap Work.outcomes).length := by
    rw [length_requests, hsum.sent]
    exact ((List.reverse_perm _).symm.flatMap_right _).length_eq
  constructor
  · exact hiter.trans (length_eq_add hsound)
  · exact (hl.units.trans hlen).trans hiter.symm
  · exact hl.totals.requests.trans hsent.symm
  · exact hl.totals.requests.trans (length_outcomes _)
  · exact hl.totals.requests_eq
  · exact hl.totals.scenarios.trans (length_results _)
  · exact hl.totals.scenarios_eq
  · refine (hfail.trans (countP_not_ok hsound)).trans ?_
    rw [← units] at hl
    exact congrArg (· + _) hl.totals.failures.symm
  · have hskipped := hl.recording.skipped_eq
    rw [hskip, Nat.zero_add] at hskipped
    exact ⟨log, hl.recording, hlog, hskipped⟩

/-- At the end of a run the numbers agree, where all that was begun has been done: the client has
answered all requests, and every plan has given the workers something to do. -/
theorem balanced_at_end (setting : Setting α) (channel : Channel (Plan α) Unit) (maxLabels : Nat)
    (listening : Bool) (created now : Int) (hc : Faithful setting.client)
    (hp : ∀ plan ∈ channel.current :: setting.news.map (·.2), HasWork plan) {s : State α}
    (hs : Reachable (.ofPlan setting channel.current now) channel
      (.create maxLabels listening created) s) (hover : s.isOver = true) :
    Balanced ((Course.ofPlan setting channel.current now).start channel
        (.create maxLabels listening created)).recorder
      (s.outcome (.ofPlan setting channel.current now)) s.units ∧
    s.journal.countP Event.begins = s.units.length := by
  obtain ⟨hdone, hsum⟩ := summed_of_isOver hc hp hs hover
  refine ⟨balanced_of_summed rfl hdone hsum (entered hc hp rfl hs), ?_⟩
  rw [countP_begins, hsum.begun, works_deeds, State.units, List.length_reverse]

def flaky : Client := fun n _ =>
  ⟨10000000, .ok (if n % 3 = 2 then .error ⟨.timeout, []⟩ else .ok ⟨200, [], []⟩)⟩

def mixed : Setting Rat :=
  { (Setting.ofClient flaky : Setting Rat) with news := [(.request 4, visits)] }

theorem balanced_at_end_mixed : ∃ s : State Rat,
    (s.isOver = true ∧ s.requests.length = 27 ∧ (executions s.units).length = 15 ∧
      (bares s.units).length = 5) ∧
    (Balanced ((Course.ofPlan mixed (planOf 2 1 (.constant 20)) 0).start
        (.ofPlan (planOf 2 1 (.constant 20))) (.create 1 false 0)).recorder
      (s.outcome (.ofPlan mixed (planOf 2 1 (.constant 20)) 0)) s.units ∧
    s.journal.countP Event.begins = s.units.length) := by
  have hs := reachable_stateAt mixed (.ofPlan (planOf 2 1 (.constant 20))) (.create 1 false 0) 0 100
  refine ⟨_, ?_, balanced_at_end _ _ _ _ _ _ ?_ ?_ hs ?_⟩
  · decide +kernel
  · intro n request
    refine ⟨_, rfl, fun e he => ?_⟩
    split at he
    · cases he
      rfl
    · cases he
  · simp [HasWork, Channel.ofPlan, mixed, visits, planOf]
  · decide +kernel

end LoadGenerator.Run
