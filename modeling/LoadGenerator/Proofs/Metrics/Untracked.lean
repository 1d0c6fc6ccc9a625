import LoadGenerator.Metrics.Recorder

namespace LoadGenerator.Metrics

namespace Labelled

def IsEmpty (t : Labelled) : Prop := ∀ entry ∈ t.histograms, entry.2 = Histogram.empty

theorem isEmpty_rotate (t : Labelled) : t.rotate.IsEmpty := by
  intro entry h
  obtain ⟨entry', -, rfl⟩ := List.mem_map.mp h
  rfl

theorem IsEmpty.rotate_eq {t : Labelled} (h : t.IsEmpty) : t.rotate = t := by
  have hmap : t.histograms.map (fun entry => (entry.1, entry.2.rotate)) = t.histograms := by
    conv => rhs; rw [← List.map_id t.histograms]
    apply List.map_congr_left
    intro entry hmem
    exact congrArg (entry.1, ·) (h entry hmem).symm
  exact congrArg (fun histograms => ({ t with histograms } : Labelled)) hmap

end Labelled

namespace Recorder

/-- A recorder that does not track has skipped so many measurements on the way from `r` to `r'`. -/
structure Skips (r r' : Recorder) (n : Nat) : Prop where
  tracking : r'.tracking = r.tracking
  skipped : r'.skipped = r.skipped + n
  turn : r'.turn = r.turn
  trackers : ∀ t, r'.tracker t = r.tracker t

variable {r r' r'' : Recorder} {m n : Nat}

theorem Skips.refl (r : Recorder) : Skips r r 0 := ⟨rfl, rfl, rfl, fun _ => rfl⟩

theorem Skips.trans (h : Skips r r' m) (h' : Skips r' r'' n) : Skips r r'' (m + n) where
  tracking := h'.tracking.trans h.tracking
  skipped := by rw [h'.skipped, h.skipped, Nat.add_assoc]
  turn := h'.turn.trans h.turn
  trackers t := (h'.trackers t).trans (h.trackers t)

theorem skips_measure (h : r.tracking = false) (percent : Nat) (t : Tracker) (label : Bytes)
    (ms : Float) : Skips r (r.measure percent t label ms).1 1 := by
  rw [measure, h]
  exact ⟨rfl, rfl, rfl, fun t => by cases t <;> rfl⟩

theorem skips_countUnit (r : Recorder) (now : Int) (label : Bytes) (ms : Double) :
    Skips r (r.countUnit now label ms) 0 :=
  ⟨rfl, rfl, rfl, fun t => by cases t <;> rfl⟩

theorem skips_addRequest (r : Recorder) (o : RequestOutcome) : Skips r (r.addRequest o) 0 :=
  ⟨rfl, rfl, rfl, fun t => by cases t <;> rfl⟩

theorem skips_addScenario (r : Recorder) (o : ScenarioOutcome) : Skips r (r.addScenario o) 0 :=
  ⟨rfl, rfl, rfl, fun t => by cases t <;> rfl⟩

theorem tracker_rotate (r : Recorder) (t : Tracker) :
    r.rotate.tracker t = (r.tracker t).rotate := by
  cases t <;> rfl

/-- Tracking is off, and no values are kept. -/
structure IsShed (r : Recorder) : Prop where
  tracking : r.tracking = false
  isEmpty : ∀ t, (r.tracker t).IsEmpty

theorem isShed_disableTracking_rotate (r : Recorder) : r.disableTracking.rotate.IsShed := by
  refine ⟨rfl, fun t => ?_⟩
  rw [tracker_rotate]
  exact Labelled.isEmpty_rotate _

theorem IsShed.of_skips (h : r.IsShed) (hs : Skips r r' n) : r'.IsShed :=
  ⟨hs.tracking.trans h.tracking, fun t => hs.trackers t ▸ h.isEmpty t⟩

theorem IsShed.rotate_eq (h : r.IsShed) : r.rotate = r := by
  have hrequests : r.requests.rotate = r.requests := (h.isEmpty .request).rotate_eq
  have hscenarios : r.scenarios.rotate = r.scenarios := (h.isEmpty .scenario).rotate_eq
  have hsteps : r.steps.rotate = r.steps := (h.isEmpty .step).rotate_eq
  rw [rotate, hrequests, hscenarios, hsteps]

theorem IsShed.disableTracking_rotate_eq (h : r.IsShed) : r.disableTracking.rotate = r := by
  have hoff : r.disableTracking = r := by rw [disableTracking, ← h.tracking]
  rw [hoff, h.rotate_eq]

end Recorder

end LoadGenerator.Metrics
