import Mathlib.Algebra.Order.Field.Rat
import Mathlib.Data.Int.CardIntervalMod
import Mathlib.Tactic.Linarith
import Mathlib.Tactic.Ring

namespace LoadGenerator.Metrics

/-- How many of the first `n` rounds of `a` decisions have a yes at place `p`. -/
def hits (percent a p n : Nat) : Nat := Nat.count (fun k => (k * a + p) % 100 < percent) n

def lucky (percent g p : Nat) : Nat := Nat.count (· ≡ p [MOD g]) percent

section

variable {percent a : Nat}

theorem gcd_mul_div (a : Nat) : Nat.gcd 100 a * (100 / Nat.gcd 100 a) = 100 :=
  Nat.mul_div_cancel' (Nat.gcd_dvd_left 100 a)

theorem gcd_pos (a : Nat) : 0 < Nat.gcd 100 a := Nat.gcd_pos_of_pos_left a (by decide)

theorem slot_add_period (a p k : Nat) :
    ((k + 100 / Nat.gcd 100 a) * a + p) % 100 = (k * a + p) % 100 := by
  obtain ⟨b, hb⟩ := Nat.gcd_dvd_right 100 a
  have hround : 100 / Nat.gcd 100 a * a = 100 * b := by
    conv => lhs; rw [hb, ← Nat.mul_assoc, Nat.mul_comm _ (Nat.gcd 100 _), ← hb, gcd_mul_div]
  rw [Nat.add_mul, hround, Nat.add_right_comm, Nat.add_mul_mod_self_left]

theorem slot_modEq (a p k : Nat) : (k * a + p) % 100 ≡ p [MOD Nat.gcd 100 a] := by
  have hround : k * a ≡ 0 [MOD Nat.gcd 100 a] :=
    Nat.modEq_zero_iff_dvd.mpr ((Nat.gcd_dvd_right 100 a).mul_left k)
  calc (k * a + p) % 100
      ≡ k * a + p [MOD Nat.gcd 100 a] := (Nat.mod_modEq _ 100).of_dvd (Nat.gcd_dvd_left 100 a)
    _ ≡ 0 + p [MOD Nat.gcd 100 a] := hround.add_right p
    _ = p := Nat.zero_add p

theorem slot_injOn (a p : Nat) :
    Set.InjOn (fun k => (k * a + p) % 100) (Finset.range (100 / Nat.gcd 100 a)) := by
  intro k hk k' hk' h
  have hround : k * a ≡ k' * a [MOD 100] := Nat.ModEq.add_right_cancel' p h
  have hsame := Nat.ModEq.cancel_right_div_gcd (by decide) hround
  exact hsame.eq_of_lt_of_lt (by simpa using hk) (by simpa using hk')

theorem lucky_hundred (a p : Nat) : lucky 100 (Nat.gcd 100 a) p = 100 / Nat.gcd 100 a := by
  rw [lucky, Nat.count_modEq_card _ (gcd_pos a), Nat.mod_eq_zero_of_dvd (Nat.gcd_dvd_left 100 a)]
  rfl

theorem image_slots (a p : Nat) :
    (Finset.range (100 / Nat.gcd 100 a)).image (fun k => (k * a + p) % 100) =
      (Finset.range 100).filter (· ≡ p [MOD Nat.gcd 100 a]) := by
  refine Finset.eq_of_subset_of_card_le ?_ ?_
  · intro t ht
    obtain ⟨k, -, rfl⟩ := Finset.mem_image.mp ht
    exact Finset.mem_filter.mpr
      ⟨Finset.mem_range.mpr (Nat.mod_lt _ (by decide)), slot_modEq a p k⟩
  · rw [← Nat.count_eq_card_filter_range, Finset.card_image_of_injOn (slot_injOn a p),
      Finset.card_range]
    exact (lucky_hundred a p).le

theorem hits_period (hpercent : percent ≤ 100) (a p : Nat) :
    hits percent a p (100 / Nat.gcd 100 a) = lucky percent (Nat.gcd 100 a) p := by
  have hinj := (slot_injOn a p).mono (Finset.coe_subset.mpr (Finset.filter_subset
    (fun k => (k * a + p) % 100 < percent) (Finset.range (100 / Nat.gcd 100 a))))
  rw [hits, Nat.count_eq_card_filter_range, ← Finset.card_image_of_injOn hinj,
    ← Finset.filter_image (p := (· < percent)), image_slots, lucky, Nat.count_eq_card_filter_range]
  congr 1
  ext t
  simp only [Finset.mem_filter, Finset.mem_range]
  constructor
  · rintro ⟨⟨-, ht⟩, hlt⟩
    exact ⟨hlt, ht⟩
  · rintro ⟨hlt, ht⟩
    exact ⟨⟨hlt.trans_le hpercent, ht⟩, hlt⟩

theorem hits_period_add (hpercent : percent ≤ 100) (a p n : Nat) :
    hits percent a p (100 / Nat.gcd 100 a + n) =
      lucky percent (Nat.gcd 100 a) p + hits percent a p n := by
  have hshift : (fun k => ((100 / Nat.gcd 100 a + k) * a + p) % 100 < percent) =
      fun k => (k * a + p) % 100 < percent := by
    funext k
    rw [Nat.add_comm _ k, slot_add_period]
  rw [← hits_period hpercent, hits, Nat.count_add]
  simp only [hshift]
  rfl

theorem hits_mul_period_add (hpercent : percent ≤ 100) (a p q n : Nat) :
    hits percent a p (100 / Nat.gcd 100 a * q + n) =
      q * lucky percent (Nat.gcd 100 a) p + hits percent a p n := by
  induction q with
  | zero => simp
  | succ q ih =>
    rw [Nat.mul_succ, Nat.add_right_comm, Nat.add_comm _ (100 / _), hits_period_add hpercent, ih]
    ring

theorem lucky_le (hpercent : percent ≤ 100) (a p : Nat) :
    lucky percent (Nat.gcd 100 a) p ≤ 100 / Nat.gcd 100 a :=
  (Nat.count_monotone _ hpercent).trans_eq (lucky_hundred a p)

theorem hits_le (percent a p n : Nat) : hits percent a p n ≤ n := Nat.count_le _

theorem abs_hits_sub_le (hpercent : percent ≤ 100) (a p n : Nat) :
    |(hits percent a p n : ℚ) - Nat.gcd 100 a * lucky percent (Nat.gcd 100 a) p * n / 100| ≤
      100 := by
  let m := 100 / Nat.gcd 100 a
  have hm : Nat.gcd 100 a * m = 100 := gcd_mul_div a
  have hc : Nat.gcd 100 a * lucky percent (Nat.gcd 100 a) p ≤ 100 :=
    (Nat.mul_le_mul_left _ (lucky_le hpercent a p)).trans_eq hm
  have hn : hits percent a p n =
      n / m * lucky percent (Nat.gcd 100 a) p + hits percent a p (n % m) := by
    conv => lhs; rw [← Nat.div_add_mod n m, hits_mul_period_add hpercent]
  generalize Nat.gcd 100 a = g at *
  generalize lucky percent g p = c at *
  have hall : g * c * n = 100 * (n / m * c) + g * c * (n % m) := by
    conv => lhs; rw [← Nat.div_add_mod n m]
    rw [← hm]
    ring
  -- what is over after the last whole period is all that can be wrong
  have hover : hits percent a p (n % m) ≤ n % m := hits_le percent a p (n % m)
  have hrest : n % m < 100 := by
    have hpos : 0 < m := Nat.pos_of_ne_zero fun h => by simp [h] at hm
    exact (Nat.mod_lt n hpos).trans_le (Nat.div_le_self 100 _)
  have hlost : g * c * (n % m) ≤ 100 * (n % m) := Nat.mul_le_mul_right _ hc
  have hmost : 100 * hits percent a p n ≤ g * c * n + 10000 := by omega
  have hleast : g * c * n ≤ 100 * hits percent a p n + 10000 := by omega
  have hmost' : 100 * (hits percent a p n : ℚ) ≤ g * c * n + 10000 := by exact_mod_cast hmost
  have hleast' : (g : ℚ) * c * n ≤ 100 * hits percent a p n + 10000 := by exact_mod_cast hleast
  exact abs_le.mpr ⟨by linarith, by linarith⟩

theorem gcd_mul_lucky (h : Nat.gcd 100 a ∣ percent) (p : Nat) :
    Nat.gcd 100 a * lucky percent (Nat.gcd 100 a) p = percent := by
  rw [lucky, Nat.count_modEq_card _ (gcd_pos a), Nat.mod_eq_zero_of_dvd h,
    if_neg (Nat.not_lt_zero _), Nat.add_zero, Nat.mul_div_cancel' h]

end

end LoadGenerator.Metrics
