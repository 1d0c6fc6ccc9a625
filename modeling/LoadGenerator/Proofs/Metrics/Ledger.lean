import LoadGenerator.Metrics.Recorder
import LoadGenerator.Proofs.Data.SortedMap

namespace LoadGenerator.Metrics

structure Measurement where
  tracker : Tracker
  label : Bytes
  ms : Float

inductive Fate where
  | skipped
  | sampledOut
  | kept
  deriving DecidableEq

/-- A recorder takes a measurement: it is kept by the one tracker that it is meant for, or by none. -/
inductive Takes (r r' : Recorder) (m : Measurement) : Fate → Prop
  | skipped (ht : r.tracking = false) (hs : r'.skipped = r.skipped + 1)
      (hk : ∀ t, r'.tracker t = r.tracker t) : Takes r r' m .skipped
  | sampledOut {percent : Nat} (ht : r.tracking = true) (hp : (r.sample percent).2 = false)
      (hs : r'.skipped = r.skipped) (hk : ∀ t, r'.tracker t = r.tracker t) : Takes r r' m .sampledOut
  | kept {percent : Nat} (ht : r.tracking = true) (hp : (r.sample percent).2 = true)
      (hs : r'.skipped = r.skipped)
      (hm : r'.tracker m.tracker = ((r.tracker m.tracker).recordMs m.label m.ms).1)
      (hk : ∀ t, t ≠ m.tracker → r'.tracker t = r.tracker t) : Takes r r' m .kept

/-- From `r₀` on, a recorder has taken the measurements of a log. -/
inductive Recording (r₀ : Recorder) : List (Measurement × Fate) → Recorder → Prop
  | fresh : Recording r₀ [] r₀
  | measured {log : List (Measurement × Fate)} {r r' : Recorder} {m : Measurement} {fate : Fate}
      (h : Recording r₀ log r) (hm : Takes r r' m fate) : Recording r₀ (log ++ [(m, fate)]) r'
  | aside {log : List (Measurement × Fate)} {r r' : Recorder} (h : Recording r₀ log r)
      (hs : r'.skipped = r.skipped) (hk : ∀ t, r'.tracker t = r.tracker t) : Recording r₀ log r'
  | rotated {log : List (Measurement × Fate)} {r r' : Recorder} (h : Recording r₀ log r)
      (hs : r'.skipped = r.skipped) (hk : ∀ t, r'.tracker t = (r.tracker t).rotate) :
      Recording r₀ log r'

theorem same_sample (r : Recorder) (percent : Nat) : (r.sample percent).1.skipped = r.skipped ∧
    ∀ t, (r.sample percent).1.tracker t = r.tracker t := by
  rw [Recorder.sample]
  split
  · exact ⟨rfl, fun _ => rfl⟩
  · exact ⟨rfl, fun t => by cases t <;> rfl⟩

theorem tracker_setTracker (r : Recorder) (t u : Tracker) (l : Labelled) :
    (r.setTracker t l).tracker u = if u = t then l else r.tracker u := by
  cases t <;> cases u <;> rfl

theorem skipped_setTracker (r : Recorder) (t : Tracker) (l : Labelled) :
    (r.setTracker t l).skipped = r.skipped := by
  cases t <;> rfl

theorem takes_measure (r : Recorder) (percent : Nat) (t : Tracker) (label : Bytes) (ms : Float) :
    ∃ fate, Takes r (r.measure percent t label ms).1 ⟨t, label, ms⟩ fate := by
  rw [Recorder.measure]
  cases ht : r.tracking with
  | false =>
    simp only [Bool.false_eq_true, if_false]
    exact ⟨.skipped, .skipped ht rfl fun t => by cases t <;> rfl⟩
  | true =>
    simp only [if_true]
    obtain ⟨hs, hk⟩ := same_sample r percent
    cases hd : r.sample percent with
    | mk r' b =>
      rw [hd] at hs hk
      have hp : (r.sample percent).2 = b := by rw [hd]
      cases b with
      | false => exact ⟨.sampledOut, .sampledOut ht hp hs hk⟩
      | true =>
        refine ⟨.kept, .kept ht hp ?_ ?_ ?_⟩
        · exact (skipped_setTracker _ _ _).trans hs
        · rw [← hk]
          exact (tracker_setTracker _ _ _ _).trans (if_pos rfl)
        · intro u hu
          exact (tracker_setTracker _ _ _ _).trans ((if_neg hu).trans (hk u))

theorem counts_keep (r : Recorder) (t : Tracker) (label : Bytes) (ms : Float) :
    (r.keep t label ms).1.throughput = r.throughput ∧ (r.keep t label ms).1.totals = r.totals := by
  cases t <;> exact ⟨rfl, rfl⟩

theorem counts_sample (r : Recorder) (percent : Nat) :
    (r.sample percent).1.throughput = r.throughput ∧ (r.sample percent).1.totals = r.totals := by
  rw [Recorder.sample]
  split <;> exact ⟨rfl, rfl⟩

theorem counts_measure (r : Recorder) (percent : Nat) (t : Tracker) (label : Bytes) (ms : Float) :
    (r.measure percent t label ms).1.throughput = r.throughput ∧
      (r.measure percent t label ms).1.totals = r.totals := by
  obtain ⟨hs, ht⟩ := counts_sample r percent
  rw [Recorder.measure]
  split
  · generalize r.sample percent = p at *
    obtain ⟨r', b⟩ := p
    cases b with
    | true =>
      obtain ⟨hs', ht'⟩ := counts_keep r' t label ms
      exact ⟨hs'.trans hs, ht'.trans ht⟩
    | false => exact ⟨hs, ht⟩
  · exact ⟨rfl, rfl⟩

theorem Recording.skipped_eq {r₀ r : Recorder} {log : List (Measurement × Fate)}
    (h : Recording r₀ log r) : r.skipped = r₀.skipped + log.countP (·.2 = .skipped) := by
  induction h with
  | fresh => simp
  | measured h hm ih =>
    rw [List.countP_append, ← Nat.add_assoc, ← ih]
    cases hm with
    | skipped ht hs hk => exact hs
    | sampledOut ht hp hs hk => exact hs
    | kept ht hp hs hm hk => exact hs
  | aside h hs hk ih => exact hs.trans ih
  | rotated h hs hk ih => exact hs.trans ih

/-- The totals of requests and executions with these outcomes. -/
structure Totals.Sums (t : Totals) (outcomes : List RequestOutcome)
    (results : List ScenarioOutcome) : Prop where
  sorted : t.statusCodes.Sorted
  requests : t.requests = outcomes.length
  answers : (t.statusCodes.map fun p => p.2).sum = outcomes.countP (·.status.isSome)
  transportErrors : t.transportErrors = outcomes.countP (·.status.isNone)
  scenarios : t.scenarios = results.length
  successes : t.successes = results.countP (·.success)
  failures : t.failures = results.countP fun o => !o.success && !o.interrupted
  interrupted : t.interrupted = results.countP fun o => !o.success && o.interrupted

namespace Totals

variable {t : Totals} {outcomes : List RequestOutcome} {results : List ScenarioOutcome}

theorem sums_zero : zero.Sums [] [] := by
  exact ⟨List.Pairwise.nil, rfl, rfl, rfl, rfl, rfl, rfl, rfl⟩

theorem Sums.addRequest (h : t.Sums outcomes results) (o : RequestOutcome) :
    (t.addRequest o).Sums (outcomes ++ [o]) results := by
  rw [Totals.addRequest]
  cases hs : o.status with
  | some status =>
    constructor
    · exact SortedMap.sorted_alter h.sorted _ _ _
    · simp [h.requests]
    · have hsum := SortedMap.sum_alter (f := (· + 1)) h.sorted id rfl (fun _ => rfl) status
      simpa [List.countP_append, hs, h.answers] using hsum
    · simp [List.countP_append, hs, h.transportErrors]
    · exact h.scenarios
    · exact h.successes
    · exact h.failures
    · exact h.interrupted
  | none =>
    constructor
    · exact h.sorted
    · simp [h.requests]
    · simp [List.countP_append, hs, h.answers]
    · simp [List.countP_append, hs, h.transportErrors]
    · exact h.scenarios
    · exact h.successes
    · exact h.failures
    · exact h.interrupted

theorem Sums.addScenario (h : t.Sums outcomes results) (o : ScenarioOutcome) :
    (t.addScenario o).Sums outcomes (results ++ [o]) := by
  rw [Totals.addScenario]
  obtain ⟨name, success, interrupted⟩ := o
  cases success <;> cases interrupted <;>
    exact ⟨h.sorted, h.requests, h.answers, h.transportErrors, by simp [h.scenarios],
      by simp [h.successes], by simp [h.failures], by simp [h.interrupted]⟩

theorem Sums.requests_eq (h : t.Sums outcomes results) :
    (t.statusCodes.map fun p => p.2).sum + t.transportErrors = t.requests := by
  rw [h.answers, h.transportErrors, h.requests, List.length_eq_countP_add_countP (·.status.isSome)]
  congr 1
  apply List.countP_congr
  intro o _
  cases o.status <;> simp

theorem Sums.scenarios_eq (h : t.Sums outcomes results) :
    t.scenarios = t.successes + t.failures + t.interrupted := by
  rw [h.scenarios, h.successes, h.failures, h.interrupted]
  clear h
  induction results with
  | nil => rfl
  | cons o results ih =>
    rw [List.length_cons, ih, List.countP_cons, List.countP_cons, List.countP_cons]
    cases o.success <;> cases o.interrupted <;> simp <;> omega

end Totals

/-- From `r₀` on, a recorder has taken a log of measurements, and has counted units of work,
requests and executions. -/
structure Ledger (r₀ r : Recorder) (log : List (Measurement × Fate)) (units : Nat)
    (outcomes : List RequestOutcome) (results : List ScenarioOutcome) : Prop where
  recording : Recording r₀ log r
  sorted : r.throughput.counters.Sorted
  units : r.throughput.count = units
  totals : r.totals.Sums outcomes results

theorem count_eq_sum (t : Throughput) : t.count = (t.counters.map fun p => p.2.count).sum := by
  rw [Throughput.count, List.sum_eq_foldl, List.foldl_map]

namespace Ledger

variable {r₀ r : Recorder} {log : List (Measurement × Fate)} {units : Nat}
  {outcomes : List RequestOutcome} {results : List ScenarioOutcome}

theorem fresh (hr : r.throughput.counters = []) (ht : r.totals = .zero) : Ledger r r [] 0 [] [] where
  recording := .fresh
  sorted := by
    rw [hr]
    exact List.Pairwise.nil
  units := by rw [Throughput.count, hr, List.foldl_nil]
  totals := ht ▸ Totals.sums_zero

theorem measure (h : Ledger r₀ r log units outcomes results) (percent : Nat) (t : Tracker)
    (label : Bytes) (ms : Float) :
    ∃ fate, Ledger r₀ (r.measure percent t label ms).1 (log ++ [(⟨t, label, ms⟩, fate)]) units
      outcomes results := by
  obtain ⟨fate, hf⟩ := takes_measure r percent t label ms
  obtain ⟨hthrough, htotals⟩ := counts_measure r percent t label ms
  exact ⟨fate, h.recording.measured hf, hthrough ▸ h.sorted, hthrough ▸ h.units, htotals ▸ h.totals⟩

theorem countUnit (h : Ledger r₀ r log units outcomes results) (now : Int) (label : Bytes)
    (ms : Double) : Ledger r₀ (r.countUnit now label ms) log (units + 1) outcomes results where
  recording := h.recording.aside rfl fun t => by cases t <;> rfl
  sorted := by
    dsimp only [Recorder.countUnit, Throughput.recordMs]
    exact SortedMap.sorted_alter h.sorted _ _ _
  units := by
    rw [count_eq_sum, ← h.units, count_eq_sum]
    dsimp only [Recorder.countUnit, Throughput.recordMs]
    exact SortedMap.sum_alter h.sorted Counter.count rfl (fun _ => rfl) label
  totals := h.totals

theorem addRequest (h : Ledger r₀ r log units outcomes results) (o : RequestOutcome) :
    Ledger r₀ (r.addRequest o) log units (outcomes ++ [o]) results where
  recording := h.recording.aside rfl fun t => by cases t <;> rfl
  sorted := h.sorted
  units := h.units
  totals := h.totals.addRequest o

theorem addScenario (h : Ledger r₀ r log units outcomes results) (o : ScenarioOutcome) :
    Ledger r₀ (r.addScenario o) log units outcomes (results ++ [o]) where
  recording := h.recording.aside rfl fun t => by cases t <;> rfl
  sorted := h.sorted
  units := h.units
  totals := h.totals.addScenario o

theorem rotate (h : Ledger r₀ r log units outcomes results) :
    Ledger r₀ r.rotate log units outcomes results where
  recording := h.recording.rotated rfl fun t => by cases t <;> rfl
  sorted := h.sorted
  units := h.units
  totals := h.totals

theorem disableTracking (h : Ledger r₀ r log units outcomes results) :
    Ledger r₀ r.disableTracking log units outcomes results where
  recording := h.recording.aside rfl fun t => by cases t <;> rfl
  sorted := h.sorted
  units := h.units
  totals := h.totals

end Ledger

end LoadGenerator.Metrics
