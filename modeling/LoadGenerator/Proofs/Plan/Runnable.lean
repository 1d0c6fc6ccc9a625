import LoadGenerator.Plan.Loader
import LoadGenerator.Proofs.Load.Rise
import LoadGenerator.Proofs.Number.Fraction
import LoadGenerator.Proofs.Plan.Parts
import LoadGenerator.Proofs.Run.Tally
import LoadGenerator.Proofs.Scenario.Selection

namespace LoadGenerator

open PlanReader

def Pattern.Compiled (p : Pattern) : Prop := ∃ source, Pattern.compile source = .ok p

def Extractor.Sound : Extractor → Prop
  | .regex p _ => p.Compiled
  | _ => True

def Assertion.Sound : Assertion → Prop
  | .statusCode code => 100 ≤ code ∧ code ≤ 599
  | .bodyMatches p => p.Compiled
  | _ => True

def ThinkTime.Sound : ThinkTime → Prop
  | .fixed ms => 0 ≤ ms
  | .between low high => 0 ≤ low ∧ low ≤ high

structure Step.Sound (s : Step) : Prop where
  extractors : ∀ e ∈ s.extractions, e.extractor.Sound
  assertions : ∀ a ∈ s.assertions, a.Sound
  thinkTime : ∀ t ∈ s.thinkTime, t.Sound

structure Scenario.Sound (s : Scenario Rat) : Prop where
  nonempty : s.steps ≠ []
  steps : ∀ step ∈ s.steps, step.Sound
  rows : ∀ t ∈ s.table, 0 < t.rows.length

structure Selector.Sound (s : Selector Rat) : Prop where
  nonempty : s.scenarios ≠ []
  scenarios : ∀ x ∈ s.scenarios, x.Sound
  weights : ∀ x ∈ s.scenarios, 0 < x.weight
  length : s.cumulative.length = s.scenarios.length
  increasing : s.cumulative.Pairwise (· < ·)

structure GuardConfig.Sound (g : GuardConfig Rat) : Prop where
  pos : 0 < g.warning
  le : g.warning ≤ g.critical
  interval : 1 ≤ g.intervalMs

structure Plan.Settled (p : Plan Rat) : Prop where
  workers : 1 ≤ p.workers
  sampling : 1 ≤ p.sampling ∧ p.sampling ≤ 100

structure Plan.Runnable (p : Plan Rat) : Prop extends p.Settled where
  baseUrl : p.baseUrl ≠ []
  guard : p.guard.Sound
  load : ∀ x ∈ p.load.numbers, 0 ≤ x
  hasWork : Run.HasWork p
  selector : ∀ s ∈ p.selector, s.Sound

namespace Duration

theorem thousand_nonneg : (0 : Rat) ≤ (1000 : Int) := by norm_num

theorem toMillis_nonneg {q : Rat} (h : 0 ≤ q) : 0 ≤ toMillis q :=
  Fraction.round_nonneg (mul_nonneg h thousand_nonneg)

theorem toMillis_mono {p q : Rat} (hp : 0 ≤ p) (h : p ≤ q) : toMillis p ≤ toMillis q :=
  Fraction.round_mono (mul_nonneg hp thousand_nonneg)
    (mul_le_mul_of_nonneg_right h thousand_nonneg)

theorem scale_nonneg (unit : Unit) : (0 : Rat) ≤ unit.scale := by
  cases unit with
  | milliseconds =>
    change (0 : Rat) ≤ (1 : Int) / (1000 : Int)
    norm_num
  | seconds | minutes | hours | days => exact Int.cast_nonneg (by decide)

theorem nonneg_parse (text : Bytes) : Ensures (parse text : Except Failure Rat) (0 ≤ ·) := by
  unfold parse
  split
  · exact ensures_error _
  · dsimp only
    split
    · exact ensures_error _
    · next x _ =>
      split
      · exact ensures_error _
      · next hneg =>
        have hx : 0 ≤ x := not_lt.mp hneg
        exact ensures_ok (mul_nonneg hx (scale_nonneg _))

theorem nonneg_ofJson (v : Json) : Ensures (ofJson v : Except Failure Rat) (0 ≤ ·) := by
  unfold ofJson
  split
  · exact nonneg_parse _
  · split
    · exact ensures_error _
    · split
      · next hx => exact ensures_ok ((isNonnegative_rat _).mp hx)
      · exact ensures_error _

end Duration

namespace Selector

theorem lt_of_mem_sums {sum : Rat} {ws : List Rat} (h : ∀ w ∈ ws, 0 < w) :
    ∀ x ∈ sums sum ws, sum < x := by
  induction ws generalizing sum with
  | nil => nofun
  | cons w ws ih =>
    obtain ⟨hw, hws⟩ := List.forall_mem_cons.mp h
    have hsum : sum < sum + w := lt_add_of_pos_right sum hw
    exact List.forall_mem_cons.mpr ⟨hsum, fun x hx => hsum.trans (ih hws x hx)⟩

theorem pairwise_sums {sum : Rat} {ws : List Rat} (h : ∀ w ∈ ws, 0 < w) :
    (sums sum ws).Pairwise (· < ·) := by
  induction ws generalizing sum with
  | nil => exact .nil
  | cons w ws ih =>
    obtain ⟨-, hws⟩ := List.forall_mem_cons.mp h
    exact .cons (lt_of_mem_sums hws) (ih hws)

theorem sound_ofList {scenarios : List (Scenario Rat)} (h : ∀ x ∈ scenarios, x.Sound) :
    Ensures (ofList (scenarios.map some)) Selector.Sound := by
  refine (ensures_ofList scenarios).mono fun s hs => ?_
  obtain ⟨rfl, hsums, hw⟩ := hs
  have hweights : ∀ x ∈ s.scenarios, 0 < x.weight := fun x hx => (isWeight_rat _).mp (hw x hx)
  have hpos : ∀ w ∈ s.scenarios.map (·.weight), 0 < w := List.forall_mem_map.mpr hweights
  refine ⟨s.nonempty, h, hweights, ?_, hsums ▸ pairwise_sums hpos⟩
  rw [hsums, length_sums, List.length_map]

end Selector

namespace PlanReader

theorem sound_thinkTime (field : Bytes) (v : Json) :
    Ensures (thinkTime Rat field v) ThinkTime.Sound := by
  refine ensures_thinkTime (fun low high hlow _ horder => ?_) fun pause hpause => ?_
  · have hlow : 0 ≤ low :=
      ensures_requiredDuration (fun d _ => Duration.nonneg_ofJson d) low hlow
    have hle : low ≤ high := not_lt.mp horder
    exact ⟨Duration.toMillis_nonneg hlow, Duration.toMillis_mono hlow hle⟩
  · exact Duration.toMillis_nonneg (ensures_duration (Duration.nonneg_ofJson v) pause hpause)

theorem compiled_pattern (v : Json) (field : Bytes) :
    Ensures (pattern v field) Pattern.Compiled := by
  unfold pattern
  refine ensures_bind fun source => ?_
  split
  · next p hp => exact ensures_ok ⟨source, hp⟩
  · exact ensures_error _

theorem sound_extractor (v : Json) (field : Bytes) :
    Ensures (extractor v field) Extractor.Sound := by
  unfold extractor
  split
  · exact ensures_map fun _ => trivial
  split
  · exact Ensures.map (compiled_pattern v field)
  split
  · exact ensures_map fun _ => trivial
  split
  · exact ensures_map fun _ => trivial
  · exact ensures_fail _ _

theorem sound_extraction (field : Bytes) (v : Json) :
    Ensures (extraction field v) fun e => e.extractor.Sound := by
  unfold extraction
  exact ensures_bind fun _ => ensures_bind fun _ => (sound_extractor v field).bind fun _ he =>
    ensures_ok he

theorem sound_statusCode (v : Json) (field : Bytes) :
    Ensures (statusCode Rat v field) Assertion.Sound := by
  refine ensures_statusCode fun code hcode => ?_
  obtain ⟨hlow, hhigh⟩ := not_or.mp hcode
  have hlow : ((100 : Int) : Rat) ≤ code := not_lt.mp hlow
  have hhigh : code ≤ ((599 : Int) : Rat) := not_lt.mp hhigh
  exact Fraction.mem_truncate hlow hhigh

theorem sound_assertion (field : Bytes) (v : Json) :
    Ensures (assertion Rat field v) Assertion.Sound :=
  ensures_assertion (sound_statusCode v field) (fun _ _ => trivial) (compiled_pattern v field)
    (fun _ => trivial) (fun _ _ => trivial) fun _ => trivial

theorem sound_step (field : Bytes) (v : Json) : Ensures (step Rat field v) Step.Sound :=
  (ensures_step (fun field w _ => sound_extraction field w)
    (fun field w _ => sound_assertion field w) fun field w _ =>
      sound_thinkTime field w).mono fun _ hs => ⟨hs.1, hs.2.1, hs.2.2⟩

theorem sound_steps (field : Bytes) (v : Json) :
    Ensures (steps Rat field v) fun ss => ss ≠ [] ∧ ∀ s ∈ ss, s.Sound :=
  ensures_steps fun field w _ => sound_step field w

theorem sound_of_passes {g : GuardConfig Rat} (h : Passes g) : g.Sound where
  pos := not_le.mp (not_or.mp h.pos).1
  le := not_lt.mp h.order
  interval := h.interval

theorem sound_guard (v : Json) : Ensures (guard v) GuardConfig.Sound := by
  have hguard := ensures_guard (v := v) (N := fun _ : Rat => True) (M := fun _ => True) trivial
    trivial trivial (fun _ _ _ _ _ => trivial) fun _ _ _ _ => trivial
  exact hguard.mono fun g hg => sound_of_passes hg.1

theorem pos_workers {v : Json} {field : Bytes} {usual : Nat} (h : 1 ≤ usual)
    (hfits : ∀ n : Rat, number? v field "workers" = .ok (some n) → n < Word.count) :
    Ensures (workers (α := Rat) v field usual) (1 ≤ ·) := by
  unfold workers
  refine (ensures_eq _).bind fun n? hn => ?_
  split
  · exact ensures_ok h
  · next n =>
    split
    · exact ensures_fail _ _
    · next hone =>
      have hone : ((1 : Int) : Rat) ≤ n := not_lt.mp (not_or.mp hone).1
      exact ensures_ok (Fraction.le_toWord hone (hfits n hn))

theorem mem_sampling {v : Json} {field : Bytes} {usual : Nat} (h : 1 ≤ usual ∧ usual ≤ 100) :
    Ensures (sampling (α := Rat) v field usual) fun n => 1 ≤ n ∧ n ≤ 100 := by
  unfold sampling
  refine ensures_bind fun n? => ?_
  split
  · exact ensures_ok h
  · next n =>
    split
    · exact ensures_fail _ _
    · next hn =>
      obtain ⟨hlow, hhigh⟩ := not_or.mp hn
      have hlow : ((1 : Int) : Rat) ≤ n := not_lt.mp hlow
      have hhigh : n ≤ ((100 : Int) : Rat) := not_lt.mp hhigh
      exact ensures_ok (Fraction.mem_truncate hlow hhigh)

theorem settled_settings {v : Json} {p : Plan Rat} (h : p.Settled)
    (hfits : ∀ n : Rat, number? v (utf8 "config") "workers" = .ok (some n) → n < Word.count) :
    Ensures (settings v p) Plan.Settled :=
  (ensures_settings v p).mono fun _ hq =>
    ⟨pos_workers h.workers hfits _ hq.workers, mem_sampling h.sampling _ hq.sampling⟩

end PlanReader

end LoadGenerator
