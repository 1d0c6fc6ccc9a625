import LoadGenerator.Proofs.Number.Fraction
import LoadGenerator.Proofs.Run.Starts
import Mathlib.Algebra.Order.BigOperators.Group.List
import Mathlib.Tactic.FieldSimp

namespace LoadGenerator

theorem Fraction.abs_round_sub_le {q : Rat} (h : 0 ≤ q) : |(round q : Rat) - q| ≤ 1 / 2 := by
  rw [round_eq h, abs_sub_le_iff]
  have hle := Int.floor_le (q + 1 / 2)
  have hlt := Int.lt_floor_add_one (q + 1 / 2)
  constructor <;> linarith

theorem Duration.toNanos_le {seconds : Rat} (h : 0 ≤ seconds) :
    (toNanos seconds : Rat) ≤ seconds * 1000000000 ∧ 0 ≤ toNanos seconds := by
  have hnn : 0 ≤ seconds * 1000000000 := by positivity
  have heq : toNanos seconds = ⌊seconds * 1000000000⌋ := Fraction.truncate_eq hnn
  rw [heq]
  exact ⟨Int.floor_le _, Int.floor_nonneg.mpr hnn⟩

namespace Pacing

/-- The pause of one of `workers` workers in milliseconds, before it is rounded. -/
def exactMs (target : Rat) (workers : Nat) : Rat := min (workers * 1000 / target) longestMs

theorem exists_delay? {target : Rat} (h : 0 < target) (workers : Nat) :
    ∃ delayMs : Nat, delay? (.perSecond target) workers = some delayMs ∧
      |(delayMs : Rat) - exactMs target workers| ≤ 1 / 2 := by
  have hnn : 0 ≤ exactMs target workers := le_min (by positivity) (Nat.cast_nonneg _)
  have hmin : Scalar.min ((workers : Rat) * 1000 / target) longestMs = exactMs target workers := by
    unfold Scalar.min exactMs
    split
    · next hlt => exact (min_eq_right (le_of_lt hlt)).symm
    · next hle => exact (min_eq_left (not_lt.mp hle)).symm
  refine ⟨(Fraction.round (exactMs target workers)).toNat, ?_, ?_⟩
  · rw [← hmin]
    exact if_pos h
  · have hcast : ((Fraction.round (exactMs target workers)).toNat : Rat) =
        (Fraction.round (exactMs target workers) : Int) := by
      exact_mod_cast Int.toNat_of_nonneg (Fraction.round_nonneg hnn)
    rw [hcast]
    exact Fraction.abs_round_sub_le hnn

end Pacing

namespace Run

open State

section

variable {α : Type} [Scalar α] {c : Course α} {i delayMs : Nat} {b : Beat α} {bs : List (Beat α)}

theorem Schedule.slots_le (h : Schedule c i (b :: bs)) : c.startedAt + slots bs ≤ b.time := by
  induction bs generalizing b with
  | nil => simpa [slots] using h.startedAt_le b (by simp)
  | cons b' bs ih =>
    cases h with
    | next hb hn h =>
      have hend : b'.slotEnd ≤ b.time := h.slotEnd_le hn
      have hslots := ih h
      rw [slots]
      omega

theorem slots_eq (h : ∀ b ∈ bs, b.Paced c i delayMs) :
    slots bs = (bs.filterMap Beat.start?).length * (delayMs * Clock.perMilli) := by
  induction bs with
  | nil => simp [slots]
  | cons b bs ih =>
    obtain ⟨hb, hbs⟩ := List.forall_mem_cons.mp h
    rw [slots, ih hbs]
    cases b with
    | begun time e =>
      simp only [Beat.slotEnd, Beat.time, Beat.start?, List.filterMap_cons, sub_self, zero_add]
    | unit start job sends stop =>
      obtain ⟨hd, -⟩ := hb
      simp only [Beat.slotEnd, Beat.time, hd, Beat.start?, List.filterMap_cons, List.length_cons]
      push_cast
      ring
    | park time e => exact hb.elim

theorem Schedule.length_mul_le (h : Schedule c i bs) (hp : ∀ b ∈ bs, b.Paced c i delayMs)
    (hd : c.startedAt ≤ c.deadline) :
    (bs.filterMap Beat.start?).length * (delayMs * Clock.perMilli) ≤
      c.deadline - c.startedAt + delayMs * Clock.perMilli := by
  have hpause : 0 ≤ delayMs * Clock.perMilli := by
    rw [Clock.perMilli]
    omega
  cases bs with
  | nil =>
    simp only [List.filterMap_nil, List.length_nil, Int.natCast_zero, Int.zero_mul]
    omega
  | cons b bs =>
    obtain ⟨hb, hbs⟩ := List.forall_mem_cons.mp hp
    have hslots := h.slots_le
    rw [slots_eq hbs] at hslots
    cases b with
    | begun time e =>
      have htime : time = c.startedAt := hb.1
      simp only [Beat.time] at hslots
      simp only [List.filterMap_cons, Beat.start?]
      omega
    | unit start job sends stop =>
      have hstart : start < c.deadline := hb.2.1
      simp only [Beat.time] at hslots
      simp only [List.filterMap_cons, Beat.start?, List.length_cons]
      push_cast
      rw [add_mul, one_mul]
      omega
    | park time e => exact hb.elim

variable {channel : Channel (Plan α) Unit} {r : Metrics.Recorder} {s : State α}

theorem length_startsOf_mul_le (hs : Reachable c channel r s) (hi : i < c.workers)
    (hc : c.Paces (c.plans channel.current) delayMs) (hd : c.startedAt ≤ c.deadline) :
    (s.startsOf i).length * (delayMs * Clock.perMilli) ≤
      c.deadline - c.startedAt + delayMs * Clock.perMilli := by
  obtain ⟨w, wait, bs, -, h⟩ := exists_inForce hs hi
  rw [startsOf_eq h.onTime.tells, List.length_reverse]
  exact h.onTime.schedule.length_mul_le (h.onTime.schedule.paced hc h.plans) hd

end

theorem length_starts_le {c : Course Rat} {channel : Channel (Plan Rat) Unit}
    {r : Metrics.Recorder} {s : State Rat} (hs : Reachable c channel r s) {delayMs : Nat}
    (hc : c.Paces (c.plans channel.current) delayMs) (hpos : 0 < delayMs) {seconds : Rat}
    (hsec : 0 ≤ seconds) (hd : c.deadline = c.startedAt + Duration.toNanos seconds) :
    (s.starts.length : Rat) ≤ c.workers * (1000 * seconds / delayMs) + c.workers := by
  obtain ⟨hnanos, hnn⟩ := Duration.toNanos_le hsec
  have hone (i : Nat) (hi : i < c.workers) :
      ((s.startsOf i).length : Rat) ≤ 1000 * seconds / delayMs + 1 := by
    have hle := length_startsOf_mul_le hs hi hc (by omega)
    rw [hd, add_sub_cancel_left, Clock.perMilli] at hle
    have hle' : ((s.startsOf i).length : Rat) * (delayMs * 1000000) ≤
        Duration.toNanos seconds + delayMs * 1000000 := by exact_mod_cast hle
    have hpos' : (0 : Rat) < delayMs := Nat.cast_pos.mpr hpos
    rw [div_add_one hpos'.ne', le_div_iff₀ hpos']
    linarith
  have hlen : s.starts.length = ((List.range c.workers).map fun i => (s.startsOf i).length).sum := by
    rw [← (starts_perm hs).length_eq, List.length_flatMap]
  have hsum := List.sum_le_card_nsmul
    ((List.range c.workers).map fun i => ((s.startsOf i).length : Rat)) (1000 * seconds / delayMs + 1)
    (by
      intro x hx
      obtain ⟨i, hi, rfl⟩ := List.mem_map.mp hx
      exact hone i (List.mem_range.mp hi))
  rw [hlen, Nat.cast_list_sum, List.map_map]
  simpa [Function.comp_def, mul_add] using hsum

/-- How many units of work are started in a run of so many seconds, by `workers` workers that aim at
`target` units per second together and pause for `delayMs` milliseconds each. -/
structure Restrained (target : Rat) (workers delayMs : Nat) (seconds : Rat) (count : Nat) :
    Prop where
  near : |(delayMs : Rat) - Pacing.exactMs target workers| ≤ 1 / 2
  paced : (count : Rat) ≤ workers * (1000 * seconds / delayMs) + workers
  /-- The target is only exceeded where the pause has been rounded down or cut to an hour. -/
  kept : workers * 1000 / target ≤ delayMs → (count : Rat) ≤ target * seconds + workers
  rounded : workers * 1000 / target ≤ Pacing.longestMs →
    (count : Rat) ≤ (1 + 1 / (2 * delayMs)) * (target * seconds) + workers

theorem restrained_of_le {target seconds : Rat} {workers delayMs count : Nat} (ht : 0 < target)
    (hsec : 0 ≤ seconds) (hpos : 0 < delayMs)
    (near : |(delayMs : Rat) - Pacing.exactMs target workers| ≤ 1 / 2)
    (paced : (count : Rat) ≤ workers * (1000 * seconds / delayMs) + workers) :
    Restrained target workers delayMs seconds count := by
  have hpos' : (0 : Rat) < delayMs := Nat.cast_pos.mpr hpos
  refine ⟨near, paced, fun hle => ?_, fun hle => ?_⟩
  · have hmul : workers * 1000 ≤ delayMs * target := (div_le_iff₀ ht).mp hle
    have hshare : workers * (1000 * seconds / delayMs) ≤ target * seconds := by
      rw [← mul_div_assoc, div_le_iff₀ hpos']
      nlinarith
    linarith
  · have hnear : workers * 1000 / target ≤ delayMs + 1 / 2 := by
      rw [Pacing.exactMs, min_eq_left hle] at near
      linarith [(abs_le.mp near).1]
    have hmul : workers * 1000 ≤ (delayMs + 1 / 2) * target := (div_le_iff₀ ht).mp hnear
    have hshare : workers * (1000 * seconds / delayMs) ≤
        (1 + 1 / (2 * delayMs)) * (target * seconds) := by
      rw [← mul_div_assoc, div_le_iff₀ hpos']
      field_simp
      nlinarith
    linarith

/-- A fleet keeps to its target, as far as a pause of whole milliseconds can. -/
theorem starts_restrained (setting : Setting Rat) (channel : Channel (Plan Rat) Unit)
    (r : Metrics.Recorder) (now : Int) {target : Rat} (ht : 0 < target)
    (hsec : 0 ≤ channel.current.duration)
    (hp : ∀ plan ∈ channel.current :: setting.news.map (·.2), plan.load = .constant target)
    {s : State Rat} (hs : Reachable (.ofPlan setting channel.current now) channel r s) :
    ∃ delayMs, Pacing.delay? (.perSecond target) channel.current.workers = some delayMs ∧
      (0 < delayMs → Restrained target channel.current.workers delayMs channel.current.duration
        s.starts.length) := by
  obtain ⟨delayMs, hd, hnear⟩ := Pacing.exists_delay? ht channel.current.workers
  refine ⟨delayMs, hd, fun hpos => restrained_of_le ht hsec hpos hnear ?_⟩
  exact length_starts_le hs (paces_of_constant hd hp) hpos hsec rfl

theorem starts_restrained_steady : ∃ s : State Rat, s.isOver = true ∧ s.starts.length = 20 ∧
    ∃ delayMs, Pacing.delay? (.perSecond (20 : Rat)) 2 = some delayMs ∧
      (0 < delayMs → Restrained 20 2 delayMs 1 s.starts.length) := by
  have hs := reachable_stateAt (.ofClient (steady 0)) (.ofPlan (planOf 2 (1 : Rat) (.constant 20)))
    (.create 1 false 0) 0 100
  have ht : (0 : Rat) < 20 := by decide +kernel
  have hr := starts_restrained _ _ _ _ ht (by decide +kernel)
    (by simp [Channel.ofPlan, Setting.ofClient, planOf]) hs
  exact ⟨_, by decide +kernel, by decide +kernel, hr⟩

/-- Seven hundred units per second need a pause between one and two milliseconds. -/
theorem exists_starts_above_target : ∃ (setting : Setting Rat) (channel : Channel (Plan Rat) Unit)
    (r : Metrics.Recorder) (s : State Rat),
    channel.current.load = .constant 700 ∧ setting.news = [] ∧
      (∀ n request, (setting.client n request).latency = 0) ∧
      Reachable (.ofPlan setting channel.current 0) channel r s ∧
      700 * channel.current.duration + channel.current.workers < s.starts.length := by
  refine ⟨.ofClient (steady 0), .ofPlan (planOf 1 (1 / 100) (.constant 700)), .create 1 false 0, _,
    rfl, rfl, fun _ _ => rfl, reachable_stateAt _ _ _ _ 60, ?_⟩
  decide +kernel

end Run
end LoadGenerator
