import LoadGenerator.Plan.Duration
import LoadGenerator.Proofs.Load.Pacing
import LoadGenerator.Proofs.Plan.Reading
import LoadGenerator.Scalar.Rational
import Mathlib.Algebra.Order.Field.Rat
import Mathlib.Tactic.Linarith

namespace LoadGenerator

theorem isPositive_perSecond (q : Rat) : (Rate.perSecond q).isPositive = false ↔ q ≤ 0 := by
  have h : (Rate.perSecond q).isPositive = decide (0 < q) := rfl
  rw [h, decide_eq_false_iff_not, not_lt]

theorem isNonnegative_rat (q : Rat) : Scalar.isNonnegative q = true ↔ 0 ≤ q := by
  have h : Scalar.isNonnegative q = (decide (q ≤ q) && !decide (q < 0)) := rfl
  rw [h]
  simp

theorem clamp_eq (q : Rat) : Scalar.clamp q 0 1 = if q < 0 then 0 else if 1 < q then 1 else q := rfl

theorem clamp_of_nonpos {q : Rat} (h : q ≤ 0) : Scalar.clamp q 0 1 = 0 := by
  rw [clamp_eq]
  split_ifs <;> linarith

theorem clamp_of_one_le {q : Rat} (h : 1 ≤ q) : Scalar.clamp q 0 1 = 1 := by
  rw [clamp_eq]
  split_ifs <;> linarith

theorem clamp_of_mem {q : Rat} (hlow : 0 ≤ q) (hhigh : q ≤ 1) : Scalar.clamp q 0 1 = q := by
  rw [clamp_eq, if_neg (not_lt.mpr hlow), if_neg (not_lt.mpr hhigh)]

theorem clamp_mem (q : Rat) : 0 ≤ Scalar.clamp q 0 1 ∧ Scalar.clamp q 0 1 ≤ 1 := by
  rw [clamp_eq]
  split
  · simp
  · split
    · simp
    · constructor <;> linarith

theorem clamp_mono {p q : Rat} (hpq : p ≤ q) : Scalar.clamp p 0 1 ≤ Scalar.clamp q 0 1 := by
  rw [clamp_eq, clamp_eq]
  split_ifs <;> linarith

theorem ofNanos_mono {m n : Int} (h : m ≤ n) :
    (Duration.ofNanos m : Rat) ≤ Duration.ofNanos n := by
  have hd (n : Int) : (Duration.ofNanos n : Rat) = (n : Rat) / (1000000000 : Int) := rfl
  rw [hd, hd]
  have : (m : Rat) ≤ n := by exact_mod_cast h
  exact div_le_div_of_nonneg_right this (by norm_num)

namespace LoadModel

open PlanReader (Ensures ensures_ok ensures_error)

/-- A ramp that begins at zero, or a day that is not all night. -/
def Rises : LoadModel Rat → Prop
  | .ramp min max _ => min = 0 ∧ 0 < max
  | .daily day => ¬(day.min = 0 ∧ day.mid = 0 ∧ day.max = 0)
  | _ => False

theorem rampRate_eq (min max seconds elapsed : Rat) : rampRate min max seconds elapsed =
    if seconds ≤ 0 then max else min + (max - min) * Scalar.clamp (elapsed / seconds) 0 1 := rfl

theorem rampRate_nonpos {min max seconds x y : Rat} (hmin : 0 ≤ min) (hmax : 0 ≤ max)
    (hr : ¬(min = 0 ∧ 0 < max)) (hxy : x ≤ y) (h : rampRate min max seconds x ≤ 0) :
    rampRate min max seconds y ≤ 0 := by
  rw [rampRate_eq] at h ⊢
  by_cases hs : seconds ≤ 0
  · rw [if_pos hs] at h ⊢
    exact h
  · rw [if_neg hs] at h ⊢
    have hle : x / seconds ≤ y / seconds :=
      div_le_div_of_nonneg_right hxy (le_of_lt (not_le.mp hs))
    have hmono := clamp_mono hle
    obtain ⟨hx0, hx1⟩ := clamp_mem (x / seconds)
    obtain ⟨hy0, hy1⟩ := clamp_mem (y / seconds)
    generalize Scalar.clamp (x / seconds) 0 1 = k at *
    generalize Scalar.clamp (y / seconds) 0 1 = l at *
    -- the rate is a mean of `min` and `max`, whose weight moves to `max`
    have hdown : min * (1 - l) ≤ min * (1 - k) := by nlinarith
    have hup : 0 ≤ max * k := by positivity
    have hleft : 0 ≤ min * (1 - k) := by nlinarith
    have hsum : min * (1 - k) + max * k ≤ 0 := by linarith
    have htop : max * l ≤ 0 := by
      rcases hmax.eq_or_lt with hz | hpos
      · rw [← hz, zero_mul]
      · have hne : min ≠ 0 := fun hm => hr ⟨hm, hpos⟩
        have hmpos : 0 < min := lt_of_le_of_ne hmin (Ne.symm hne)
        have hk : k = 1 := by nlinarith
        nlinarith
    linarith

theorem rate_of_zero {day : Day Rat} (hmin : day.min = 0) (hmid : day.mid = 0) (hmax : day.max = 0)
    (elapsed : Rat) : day.rate elapsed = 0 := by
  have hslope (t span : Rat) : Day.slope 0 0 t span = 0 := by
    have h : Day.slope 0 0 t span = if span ≤ 0 then 0 else 0 + (0 - 0) * (t / span) := rfl
    rw [h]
    split <;> simp
  rw [Day.rate]
  rw [hmin, hmid, hmax]
  simp only [hslope, ite_self]

def numbers : LoadModel Rat → List Rat
  | .concurrent => []
  | .constant target => [target]
  | .ramp min max seconds => [min, max, seconds]
  | .daily day => [day.min, day.mid, day.max] ++ day.cycle :: day.shares.toList

theorem nonneg_validate (m : LoadModel Rat) :
    Ensures m.validate fun _ => ∀ x ∈ m.numbers, 0 ≤ x := by
  cases m with
  | concurrent => exact ensures_ok nofun
  | constant target =>
    rw [validate]
    split
    · next ht => exact ensures_ok (List.forall_mem_singleton.mpr ((isNonnegative_rat _).mp ht))
    · exact ensures_error _
  | ramp min max seconds =>
    rw [validate]
    split
    · exact ensures_error _
    · next hends =>
      split
      · exact ensures_error _
      · next hseconds =>
        simp only [Bool.not_eq_true', Bool.not_eq_false, Bool.and_eq_true, isNonnegative_rat]
          at hends hseconds
        have hall : ∀ x ∈ (ramp min max seconds).numbers, 0 ≤ x := by
          simpa [numbers] using ⟨hends.1, hends.2, hseconds⟩
        split <;> exact ensures_ok hall
  | daily day =>
    rw [validate]
    split
    · exact ensures_error _
    · next hends =>
      split
      · exact ensures_error _
      · next hcycle =>
        split
        · exact ensures_error _
        · next hshares =>
          simp only [Bool.not_eq_true', Bool.not_eq_false, List.all_eq_true, isNonnegative_rat]
            at hends hcycle hshares
          have hall : ∀ x ∈ (daily day).numbers, 0 ≤ x :=
            List.forall_mem_append.mpr ⟨hends, List.forall_mem_cons.mpr ⟨hcycle, hshares⟩⟩
          split <;> exact ensures_ok hall

theorem nonneg_of_valid {m : LoadModel Rat} (h : m.validate.isOk = true) :
    ∀ x ∈ m.numbers, 0 ≤ x := by
  cases hm : m.validate with
  | error e => rw [hm] at h; cases h
  | ok warnings => exact m.nonneg_validate warnings hm

theorem isPositive_of_le {m : LoadModel Rat} (hv : m.validate.isOk = true) (hr : ¬m.Rises)
    {x y : Rat} (hxy : x ≤ y) (h : (m.rate x).isPositive = false) :
    (m.rate y).isPositive = false := by
  cases m with
  | concurrent => cases h
  | constant target => exact h
  | ramp min max seconds =>
    have hmin : 0 ≤ min := nonneg_of_valid hv min (by simp [numbers])
    have hmax : 0 ≤ max := nonneg_of_valid hv max (by simp [numbers])
    rw [rate, isPositive_perSecond] at h ⊢
    exact rampRate_nonpos hmin hmax hr hxy h
  | daily day =>
    obtain ⟨hmin, hmid, hmax⟩ := not_not.mp hr
    rw [rate, isPositive_perSecond, rate_of_zero hmin hmid hmax]

end LoadModel

end LoadGenerator
