import LoadGenerator.Proofs.Load.Rise
import LoadGenerator.Proofs.Number.Fraction
import Mathlib.Algebra.Order.BigOperators.Group.List
import Mathlib.Order.Interval.Set.UnorderedInterval
import Mathlib.Tactic.FieldSimp

namespace LoadGenerator

section

variable {a b k l low high : Rat}

theorem mean_mem_uIcc (hk : 0 ≤ k) (hk' : k ≤ 1) : a + (b - a) * k ∈ Set.uIcc a b := by
  rw [Set.mem_uIcc]
  rcases le_total a b with hab | hab
  · left
    constructor <;> nlinarith
  · right
    constructor <;> nlinarith

theorem mean_mem_uIcc_mean (hkl : k ≤ l) (hl : l ≤ 1) :
    a + (b - a) * l ∈ Set.uIcc (a + (b - a) * k) b := by
  rw [Set.mem_uIcc]
  rcases le_total a b with hab | hab
  · left
    constructor <;> nlinarith
  · right
    constructor <;> nlinarith

end

/-- A curve that goes from `min` to `max` within `seconds`, never back, and then stays. -/
structure RampShape (min max seconds : Rat) (f : Rat → Rat) : Prop where
  between : ∀ x, f x ∈ Set.uIcc min max
  onward : ∀ x y, x ≤ y → f y ∈ Set.uIcc (f x) max
  start : 0 < seconds → ∀ x ≤ 0, f x = min
  arrived : ∀ x, seconds ≤ x → f x = max

namespace LoadModel

variable {min max seconds : Rat}

theorem rampRate_of_nonpos (h : seconds ≤ 0) (x : Rat) : rampRate min max seconds x = max := by
  rw [rampRate_eq, if_pos h]

theorem rampRate_of_pos (h : 0 < seconds) (x : Rat) :
    rampRate min max seconds x = min + (max - min) * Scalar.clamp (x / seconds) 0 1 := by
  rw [rampRate_eq, if_neg (not_le.mpr h)]

theorem rampShape (min max seconds : Rat) :
    RampShape min max seconds (rampRate min max seconds) := by
  rcases le_or_gt seconds 0 with hs | hs
  · constructor
    · intro x
      rw [rampRate_of_nonpos hs]
      exact Set.right_mem_uIcc
    · intro x y _
      rw [rampRate_of_nonpos hs y]
      exact Set.right_mem_uIcc
    · exact fun hpos => absurd hs (not_le.mpr hpos)
    · exact fun x _ => rampRate_of_nonpos hs x
  · constructor
    · intro x
      rw [rampRate_of_pos hs]
      exact mean_mem_uIcc (clamp_mem _).1 (clamp_mem _).2
    · intro x y hxy
      rw [rampRate_of_pos hs, rampRate_of_pos hs]
      exact mean_mem_uIcc_mean (clamp_mono (div_le_div_of_nonneg_right hxy hs.le)) (clamp_mem _).2
    · intro _ x hx
      have hdiv : x / seconds ≤ 0 := div_nonpos_of_nonpos_of_nonneg hx hs.le
      rw [rampRate_of_pos hs, clamp_of_nonpos hdiv, mul_zero, add_zero]
    · intro x hx
      have hdiv : 1 ≤ x / seconds := (one_le_div₀ hs).mpr hx
      rw [rampRate_of_pos hs, clamp_of_one_le hdiv, mul_one, add_sub_cancel]

end LoadModel

/-- A part of a day, in which the rate goes from one value to another. -/
structure Phase where
  first : Rat
  last : Rat
  length : Rat

namespace Phase

/-- The rate after `t` seconds of some phases, behind which it stays at `rest`. -/
def follow (rest : Rat) : List Phase → Rat → Rat
  | [], _ => rest
  | p :: ps, t =>
    if t < p.length then p.first + (p.last - p.first) * (t / p.length)
    else follow rest ps (t - p.length)

def duration (ps : List Phase) : Rat := (ps.map (·.length)).sum

/-- Phases each of which begins where the one before it ends, with nowhere more than `k` between
the rates of two moments a second apart. -/
def Joined (k rest : Rat) : Rat → List Phase → Prop
  | first, [] => first = rest
  | first, p :: ps =>
    p.first = first ∧ 0 ≤ p.length ∧ |p.last - p.first| ≤ k * p.length ∧ Joined k rest p.last ps

variable {ps : List Phase} {k rest first low high : Rat}

theorem follow_mem (hrest : low ≤ rest ∧ rest ≤ high)
    (h : ∀ p ∈ ps, (low ≤ p.first ∧ p.first ≤ high) ∧ low ≤ p.last ∧ p.last ≤ high) {t : Rat}
    (ht : 0 ≤ t) : low ≤ follow rest ps t ∧ follow rest ps t ≤ high := by
  induction ps generalizing t with
  | nil => exact hrest
  | cons p ps ih =>
    obtain ⟨⟨hfirst, hlast⟩, hps⟩ := List.forall_mem_cons.mp h
    rw [follow]
    split
    · next hlt =>
      have hlength : 0 < p.length := ht.trans_lt hlt
      have hmem := mean_mem_uIcc (a := p.first) (b := p.last) (div_nonneg ht hlength.le)
        ((div_le_one₀ hlength).mpr hlt.le)
      exact Set.uIcc_subset_Icc hfirst hlast hmem
    · next hle => exact ih hps (sub_nonneg.mpr (not_lt.mp hle))

theorem follow_of_duration_le (hlength : ∀ p ∈ ps, 0 ≤ p.length) {t : Rat} (h : duration ps ≤ t) :
    follow rest ps t = rest := by
  induction ps generalizing t with
  | nil => rfl
  | cons p ps ih =>
    obtain ⟨_, hps⟩ := List.forall_mem_cons.mp hlength
    have hsum : p.length + duration ps ≤ t := h
    have hrest : 0 ≤ duration ps := List.sum_nonneg (by simpa using hps)
    rw [follow, if_neg (by linarith), ih hps (by linarith)]

theorem abs_part_le {way length x : Rat} (hway : |way| ≤ k * length) (hlength : 0 < length)
    (hx : 0 ≤ x) : |way * (x / length)| ≤ k * x := by
  rw [abs_mul, abs_of_nonneg (div_nonneg hx hlength.le), ← mul_div_assoc, div_le_iff₀ hlength]
  calc |way| * x ≤ k * length * x := mul_le_mul_of_nonneg_right hway hx
    _ = k * x * length := by ring

namespace Joined

theorem length_nonneg (h : Joined k rest first ps) : ∀ p ∈ ps, 0 ≤ p.length := by
  induction ps generalizing first with
  | nil => nofun
  | cons p ps ih =>
    obtain ⟨-, hlength, -, hps⟩ := h
    exact List.forall_mem_cons.mpr ⟨hlength, ih hps⟩

theorem follow_zero (h : Joined k rest first ps) : follow rest ps 0 = first := by
  induction ps generalizing first with
  | nil => exact Eq.symm h
  | cons p ps ih =>
    obtain ⟨rfl, hlength, hsteep, hps⟩ := h
    rw [follow]
    split
    · rw [zero_div, mul_zero, add_zero]
    · next hle =>
      -- a phase without length leads nowhere else
      have hzero : p.length = 0 := le_antisymm (not_lt.mp hle) hlength
      rw [hzero, mul_zero] at hsteep
      rw [hzero, sub_zero, ih hps]
      exact sub_eq_zero.mp (abs_nonpos_iff.mp hsteep)

theorem abs_follow_sub_le (h : Joined k rest first ps) (hk : 0 ≤ k) {x y : Rat} (hx : 0 ≤ x)
    (hxy : x ≤ y) : |follow rest ps y - follow rest ps x| ≤ k * (y - x) := by
  induction ps generalizing first x y with
  | nil =>
    rw [follow, follow, sub_self, abs_zero]
    exact mul_nonneg hk (sub_nonneg.mpr hxy)
  | cons p ps ih =>
    obtain ⟨-, hlength, hsteep, hps⟩ := h
    rw [follow, follow]
    split
    · next hylt =>
      have hxlt : x < p.length := hxy.trans_lt hylt
      have hdiff : p.first + (p.last - p.first) * (y / p.length) -
          (p.first + (p.last - p.first) * (x / p.length)) =
            (p.last - p.first) * ((y - x) / p.length) := by ring
      rw [if_pos hxlt, hdiff]
      exact abs_part_le hsteep (hx.trans_lt hxlt) (sub_nonneg.mpr hxy)
    · next hyle =>
      have hyle : p.length ≤ y := not_lt.mp hyle
      split
      · next hxlt =>
        -- from `x` to the end of the phase, and from there to `y`
        have hpos : 0 < p.length := hx.trans_lt hxlt
        have hrest := ih hps le_rfl (sub_nonneg.mpr hyle)
        rw [hps.follow_zero, sub_zero] at hrest
        have hhere : p.last - (p.first + (p.last - p.first) * (x / p.length)) =
            (p.last - p.first) * ((p.length - x) / p.length) := by
          field_simp
          ring
        calc |follow rest ps (y - p.length) - (p.first + (p.last - p.first) * (x / p.length))|
            ≤ |follow rest ps (y - p.length) - p.last| +
                |p.last - (p.first + (p.last - p.first) * (x / p.length))| := abs_sub_le _ _ _
          _ ≤ k * (y - p.length) + k * (p.length - x) :=
              add_le_add hrest (hhere ▸ abs_part_le hsteep hpos (sub_nonneg.mpr hxlt.le))
          _ = k * (y - x) := by ring
      · next hxle =>
        have hall := ih hps (sub_nonneg.mpr (not_lt.mp hxle)) (sub_le_sub_right hxy p.length)
        rwa [sub_sub_sub_cancel_right] at hall

theorem abs_follow_again_sub_le (h : Joined k rest rest ps) (hk : 0 ≤ k) {cycle x y : Rat}
    (hcycle : duration ps ≤ cycle) (hx : 0 ≤ x) (hxc : x ≤ cycle) (hy : 0 ≤ y) :
    |follow rest ps y - follow rest ps x| ≤ k * (y + cycle - x) := by
  have hbefore := h.abs_follow_sub_le hk hx hxc
  rw [follow_of_duration_le h.length_nonneg hcycle] at hbefore
  have hafter := h.abs_follow_sub_le hk le_rfl hy
  rw [h.follow_zero] at hafter
  calc |follow rest ps y - follow rest ps x|
      ≤ |follow rest ps y - rest| + |rest - follow rest ps x| := abs_sub_le _ _ _
    _ ≤ k * (y - 0) + k * (cycle - x) := add_le_add hafter hbefore
    _ = k * (y + cycle - x) := by ring

end Joined

end Phase

namespace Day

def phases (d : Day Rat) : List Phase :=
  [⟨d.min, d.max, d.cycle * d.shares.morning⟩, ⟨d.max, d.max, d.cycle * d.shares.peak⟩,
    ⟨d.max, d.mid, d.cycle * d.shares.decline⟩, ⟨d.mid, d.mid, d.cycle * d.shares.midday⟩,
    ⟨d.mid, d.min, d.cycle * d.shares.evening⟩]

/-- The greatest of three changes of the rate, in a second. -/
def steepest (d : Day Rat) : Rat :=
  |d.max - d.min| / (d.cycle * d.shares.morning) ⊔ |d.mid - d.max| / (d.cycle * d.shares.decline) ⊔
    |d.min - d.mid| / (d.cycle * d.shares.evening)

def timeOf (d : Day Rat) (elapsed : Rat) : Rat := Scalar.remainder (Scalar.max elapsed 0) d.cycle

variable {d : Day Rat} {x : Rat}

theorem slope_eq (a b elapsed span : Rat) : slope a b elapsed span =
    if span ≤ 0 then b else a + (b - a) * (elapsed / span) := rfl

theorem slope_of_lt {a b elapsed span : Rat} (hlow : 0 ≤ elapsed) (hhigh : elapsed < span) :
    slope a b elapsed span = a + (b - a) * (elapsed / span) := by
  rw [slope_eq, if_neg (not_le.mpr (hlow.trans_lt hhigh))]

theorem max_eq_of_nonneg (hx : 0 ≤ x) : Scalar.max x 0 = x := if_neg (not_lt.mpr hx)

theorem max_nonneg (x : Rat) : 0 ≤ Scalar.max x 0 := by
  have h : Scalar.max x 0 = if x < 0 then 0 else x := rfl
  rw [h]
  split
  · exact le_rfl
  · next hx => exact not_lt.mp hx

theorem remainder_eq {c : Rat} (hx : 0 ≤ x) (hc : 0 < c) :
    Scalar.remainder x c = x - c * ⌊x / c⌋ := by
  have h : Scalar.remainder x c = x - c * (Fraction.truncate (x / c) : Rat) := rfl
  rw [h, Fraction.truncate_eq (div_nonneg hx hc.le)]

theorem timeOf_eq (hx : 0 ≤ x) (hc : 0 < d.cycle) : d.timeOf x = x - d.cycle * ⌊x / d.cycle⌋ := by
  rw [timeOf, max_eq_of_nonneg hx, remainder_eq hx hc]

theorem timeOf_mem (hc : 0 < d.cycle) (x : Rat) : 0 ≤ d.timeOf x ∧ d.timeOf x < d.cycle := by
  rw [timeOf, remainder_eq (max_nonneg x) hc]
  have hdiv : d.cycle * (Scalar.max x 0 / d.cycle) = Scalar.max x 0 := mul_div_cancel₀ _ hc.ne'
  constructor
  · nlinarith [Int.floor_le (Scalar.max x 0 / d.cycle)]
  · nlinarith [Int.lt_floor_add_one (Scalar.max x 0 / d.cycle)]

theorem timeOf_add (hc : 0 < d.cycle) (hx : 0 ≤ x) (n : Nat) :
    d.timeOf (x + n * d.cycle) = d.timeOf x := by
  have hsum : 0 ≤ x + n * d.cycle := add_nonneg hx (mul_nonneg n.cast_nonneg hc.le)
  have hdiv : (x + n * d.cycle) / d.cycle = x / d.cycle + n := by
    rw [add_div, mul_div_cancel_right₀ _ hc.ne']
  rw [timeOf_eq hsum hc, timeOf_eq hx hc, hdiv, Int.floor_add_natCast]
  push_cast
  ring

theorem timeOf_add_cycle_sub_le (hc : 0 < d.cycle) {y : Rat} (hx : 0 ≤ x) (hy : 0 ≤ y)
    (h : ⌊x / d.cycle⌋ < ⌊y / d.cycle⌋) : d.timeOf y + d.cycle - d.timeOf x ≤ y - x := by
  have hone : (⌊x / d.cycle⌋ : Rat) + 1 ≤ ⌊y / d.cycle⌋ := by exact_mod_cast h
  have hcycle : d.cycle * (⌊x / d.cycle⌋ + 1) ≤ d.cycle * ⌊y / d.cycle⌋ :=
    mul_le_mul_of_nonneg_left hone hc.le
  rw [timeOf_eq hx hc, timeOf_eq hy hc]
  linarith

theorem rate_of_nonpos (h : d.cycle ≤ 0) (x : Rat) : d.rate x = d.max := if_pos h

theorem rate_eq_follow (hc : 0 < d.cycle) (x : Rat) :
    d.rate x = Phase.follow d.min d.phases (d.timeOf x) := by
  have hpos : ¬d.cycle ≤ Scalar.zero := not_le.mpr hc
  have htime : Scalar.remainder (Scalar.max x Scalar.zero) d.cycle = d.timeOf x := rfl
  have ht : 0 ≤ d.timeOf x := (timeOf_mem hc x).1
  rw [rate, if_neg hpos, htime]
  simp only [phases, Phase.follow, sub_sub, sub_lt_iff_lt_add', add_sub_cancel_left, sub_self,
    zero_mul, add_zero]
  generalize d.timeOf x = t at ht
  split_ifs with hmorning hpeak hdecline hmidday hevening
  · exact slope_of_lt ht hmorning
  · rfl
  · exact slope_of_lt (sub_nonneg.mpr (not_lt.mp hpeak)) (sub_lt_iff_lt_add'.mpr hdecline)
  · rfl
  · exact slope_of_lt (sub_nonneg.mpr (not_lt.mp hmidday)) (sub_lt_iff_lt_add'.mpr hevening)
  · rfl

theorem rate_mem {low high : Rat} (hmin : low ≤ d.min ∧ d.min ≤ high)
    (hmid : low ≤ d.mid ∧ d.mid ≤ high) (hmax : low ≤ d.max ∧ d.max ≤ high) (x : Rat) :
    low ≤ d.rate x ∧ d.rate x ≤ high := by
  rcases le_or_gt d.cycle 0 with hc | hc
  · rw [rate_of_nonpos hc]
    exact hmax
  · rw [rate_eq_follow hc]
    refine Phase.follow_mem hmin ?_ (timeOf_mem hc x).1
    simp only [phases, List.forall_mem_cons]
    exact ⟨⟨hmin, hmax⟩, ⟨hmax, hmax⟩, ⟨hmax, hmid⟩, ⟨hmid, hmid⟩, ⟨hmid, hmin⟩, nofun⟩

theorem rate_add (hx : 0 ≤ x) (n : Nat) : d.rate (x + n * d.cycle) = d.rate x := by
  rcases le_or_gt d.cycle 0 with hc | hc
  · rw [rate_of_nonpos hc, rate_of_nonpos hc]
  · rw [rate_eq_follow hc, rate_eq_follow hc, timeOf_add hc hx]

structure Sloped (d : Day Rat) : Prop where
  cycle : 0 < d.cycle
  morning : 0 < d.cycle * d.shares.morning
  decline : 0 < d.cycle * d.shares.decline
  evening : 0 < d.cycle * d.shares.evening

namespace Sloped

variable (h : d.Sloped)
include h

theorem steepest_nonneg : 0 ≤ d.steepest := by
  have hmorning : 0 ≤ |d.max - d.min| / (d.cycle * d.shares.morning) :=
    div_nonneg (abs_nonneg _) h.morning.le
  exact hmorning.trans (le_sup_left.trans le_sup_left)

theorem joined (hpeak : 0 ≤ d.shares.peak) (hmidday : 0 ≤ d.shares.midday) :
    Phase.Joined d.steepest d.min d.min d.phases := by
  have hlevel (r : Rat) {length : Rat} (hlength : 0 ≤ length) : |r - r| ≤ d.steepest * length := by
    rw [sub_self, abs_zero]
    exact mul_nonneg h.steepest_nonneg hlength
  have hpeak : 0 ≤ d.cycle * d.shares.peak := mul_nonneg h.cycle.le hpeak
  have hmidday : 0 ≤ d.cycle * d.shares.midday := mul_nonneg h.cycle.le hmidday
  exact ⟨rfl, h.morning.le, (div_le_iff₀ h.morning).mp (le_sup_left.trans le_sup_left),
    rfl, hpeak, hlevel _ hpeak,
    rfl, h.decline.le, (div_le_iff₀ h.decline).mp (le_sup_right.trans le_sup_left),
    rfl, hmidday, hlevel _ hmidday,
    rfl, h.evening.le, (div_le_iff₀ h.evening).mp le_sup_right, rfl⟩

end Sloped

theorem sum_eq (s : PhaseShares Rat) :
    s.sum = s.morning + s.peak + s.decline + s.midday + s.evening := by
  have h : s.sum = 0 + s.morning + s.peak + s.decline + s.midday + s.evening := rfl
  rw [h, zero_add]

theorem duration_phases_le (hc : 0 < d.cycle) (hsum : d.shares.sum ≤ 1) :
    Phase.duration d.phases ≤ d.cycle := by
  have hduration : Phase.duration d.phases = d.cycle * d.shares.sum := by
    simp only [sum_eq, Phase.duration, phases, List.map_cons, List.map_nil, List.sum_cons,
      List.sum_nil]
    ring
  rw [hduration]
  exact mul_le_of_le_one_right hc.le hsum

theorem abs_rate_sub_le (h : d.Sloped) (hpeak : 0 ≤ d.shares.peak) (hmidday : 0 ≤ d.shares.midday)
    (hsum : d.shares.sum ≤ 1) {x y : Rat} (hx : 0 ≤ x) (hxy : x ≤ y) :
    |d.rate y - d.rate x| ≤ d.steepest * (y - x) := by
  have hc := h.cycle
  have hk := h.steepest_nonneg
  have hjoined := h.joined hpeak hmidday
  obtain ⟨hx₀, hxc⟩ := timeOf_mem hc x
  have hy₀ := (timeOf_mem hc y).1
  have hcycles : ⌊x / d.cycle⌋ ≤ ⌊y / d.cycle⌋ :=
    Int.floor_le_floor (div_le_div_of_nonneg_right hxy hc.le)
  rw [rate_eq_follow hc, rate_eq_follow hc]
  rcases hcycles.lt_or_eq with hlater | hsame
  · have hagain :=
      hjoined.abs_follow_again_sub_le hk (duration_phases_le hc hsum) hx₀ hxc.le hy₀
    have hrest := timeOf_add_cycle_sub_le hc hx (hx.trans hxy) hlater
    exact hagain.trans (mul_le_mul_of_nonneg_left hrest hk)
  · have hdiff : y - x = d.timeOf y - d.timeOf x := by
      rw [timeOf_eq hx hc, timeOf_eq (hx.trans hxy) hc, hsame]
      ring
    rw [hdiff]
    exact hjoined.abs_follow_sub_le hk hx₀ (by linarith)

end Day

/-- A curve that stays among the rates of a day, repeats itself, and has no jumps where none of the
slopes is a jump. -/
structure DayShape (d : Day Rat) (f : Rat → Rat) : Prop where
  between : ∀ x, d.min ⊓ d.mid ⊓ d.max ≤ f x ∧ f x ≤ d.min ⊔ d.mid ⊔ d.max
  again : ∀ x, 0 ≤ x → ∀ n : Nat, f (x + n * d.cycle) = f x
  gentle : d.Sloped → d.shares.sum ≤ 1 → ∀ x y, 0 ≤ x → 0 ≤ y → |f y - f x| ≤ d.steepest * |y - x|

theorem Day.dayShape {d : Day Rat} (hpeak : 0 ≤ d.shares.peak) (hmidday : 0 ≤ d.shares.midday) :
    DayShape d d.rate := by
  refine ⟨fun x => ?_, fun x hx n => rate_add hx n, fun h hsum x y hx hy => ?_⟩
  · exact rate_mem ⟨inf_le_left.trans inf_le_left, le_sup_left.trans le_sup_left⟩
      ⟨inf_le_left.trans inf_le_right, le_sup_right.trans le_sup_left⟩
      ⟨inf_le_right, le_sup_right⟩ x
  · rcases le_total x y with hxy | hxy
    · rw [abs_of_nonneg (sub_nonneg.mpr hxy)]
      exact abs_rate_sub_le h hpeak hmidday hsum hx hxy
    · rw [abs_sub_comm, abs_sub_comm y, abs_of_nonneg (sub_nonneg.mpr hxy)]
      exact abs_rate_sub_le h hpeak hmidday hsum hy hxy

/-- The arithmetic of fractions, but that dividing by zero may have any result. -/
@[reducible]
def Scalar.dividing (quotient rest : Rat → Rat) : Scalar Rat :=
  { (inferInstance : Scalar Rat) with
    div := fun x y => if y = 0 then quotient x else x / y
    remainder := fun x y => if y = 0 then rest x else Scalar.remainder x y }

namespace LoadModel

variable (quotient rest : Rat → Rat)

theorem slope_dividing (a b elapsed span : Rat) :
    @Day.slope Rat (Scalar.dividing quotient rest) a b elapsed span =
      Day.slope a b elapsed span := by
  have h : @Day.slope Rat (Scalar.dividing quotient rest) a b elapsed span =
      if span ≤ 0 then b
      else a + (b - a) * (if span = 0 then quotient elapsed else elapsed / span) := rfl
  rw [h, Day.slope_eq]
  split
  · rfl
  · next hspan => rw [if_neg fun hzero => hspan hzero.le]

theorem rampRate_dividing (min max seconds elapsed : Rat) :
    @rampRate Rat (Scalar.dividing quotient rest) min max seconds elapsed =
      rampRate min max seconds elapsed := by
  have h : @rampRate Rat (Scalar.dividing quotient rest) min max seconds elapsed =
      if seconds ≤ 0 then max
      else min + (max - min) *
        Scalar.clamp (if seconds = 0 then quotient elapsed else elapsed / seconds) 0 1 := rfl
  rw [h, rampRate_eq]
  split
  · rfl
  · next hseconds => rw [if_neg fun hzero => hseconds hzero.le]

theorem rate_day_dividing (d : Day Rat) (elapsed : Rat) :
    @Day.rate Rat (Scalar.dividing quotient rest) d elapsed = d.rate elapsed := by
  by_cases hc : d.cycle ≤ 0
  · have hleft : @Day.rate Rat (Scalar.dividing quotient rest) d elapsed = d.max := if_pos hc
    rw [hleft, Day.rate_of_nonpos hc]
  · have hrest (x : Rat) : @Scalar.remainder Rat (Scalar.dividing quotient rest) x d.cycle =
        Scalar.remainder x d.cycle := if_neg fun hzero => hc hzero.le
    unfold Day.rate
    simp only [hrest, slope_dividing]
    rfl

theorem rate_dividing (m : LoadModel Rat) (elapsed : Rat) :
    @rate Rat (Scalar.dividing quotient rest) m elapsed = m.rate elapsed := by
  cases m with
  | concurrent => rfl
  | constant target => rfl
  | ramp min max seconds =>
    exact congrArg Rate.perSecond (rampRate_dividing quotient rest min max seconds elapsed)
  | daily day => exact congrArg Rate.perSecond (rate_day_dividing quotient rest day elapsed)

/-- The target follows a curve of the shape that its kind has. -/
def HasShape (m : LoadModel Rat) : Prop :=
  match m with
  | .concurrent => ∀ x, m.rate x = .unlimited
  | .constant target => ∀ x, m.rate x = .perSecond target
  | .ramp min max seconds => ∃ f, (∀ x, m.rate x = .perSecond (f x)) ∧ RampShape min max seconds f
  | .daily day => ∃ f, (∀ x, m.rate x = .perSecond (f x)) ∧ DayShape day f

/-- The target of a load model that has passed its check has the shape of its kind, and nothing in
it depends on a division by zero. -/
theorem hasShape_of_valid {m : LoadModel Rat} (h : m.validate.isOk = true) :
    m.HasShape ∧ ∀ (quotient rest : Rat → Rat) (x : Rat),
      @rate Rat (Scalar.dividing quotient rest) m x = m.rate x := by
  refine ⟨?_, fun quotient rest x => rate_dividing quotient rest m x⟩
  cases m with
  | concurrent => exact fun _ => rfl
  | constant target => exact fun _ => rfl
  | ramp min max seconds => exact ⟨_, fun _ => rfl, rampShape min max seconds⟩
  | daily day =>
    have hshares : ∀ x ∈ day.shares.toList, 0 ≤ x := fun x hx =>
      nonneg_of_valid h x (List.mem_append_right _ (List.mem_cons_of_mem _ hx))
    have hpeak := hshares day.shares.peak (by simp [PhaseShares.toList])
    have hmidday := hshares day.shares.midday (by simp [PhaseShares.toList])
    exact ⟨_, fun _ => rfl, Day.dayShape hpeak hmidday⟩

theorem hasShape_of_valid_sleepless :
    let day : Day Rat := ⟨10, 50, 100, 3600, ⟨1 / 10, 3 / 10, 2 / 10, 0, 4 / 10⟩⟩
    (daily day).validate.isOk = true ∧ day.Sloped ∧ day.shares.sum ≤ 1 ∧
      ∀ x y, 0 ≤ x → 0 ≤ y → |day.rate y - day.rate x| ≤ 1 / 4 * |y - x| := by
  intro day
  have hvalid : (daily day).validate.isOk = true := by decide +kernel
  have hsloped : day.Sloped := by constructor <;> norm_num [day]
  have hsum : day.shares.sum ≤ 1 := by norm_num [day, Day.sum_eq]
  have hsteepest : day.steepest = 1 / 4 := by norm_num [day, Day.steepest, abs_of_nonneg]
  obtain ⟨⟨f, hf, hshape⟩, -⟩ := hasShape_of_valid hvalid
  have hrate (x : Rat) : day.rate x = f x := Rate.perSecond.inj (hf x)
  refine ⟨hvalid, hsloped, hsum, fun x y hx hy => ?_⟩
  rw [hrate, hrate, ← hsteepest]
  exact hshape.gentle hsloped hsum x y hx hy

end LoadModel

end LoadGenerator
