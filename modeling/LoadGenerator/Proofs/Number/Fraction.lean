import LoadGenerator.Scalar.Rational
import Mathlib.Data.Rat.Floor
import Mathlib.Tactic.Linarith

namespace LoadGenerator.Fraction

variable {p q : Rat}

theorem truncate_eq (h : 0 ≤ q) : truncate q = ⌊q⌋ := by
  unfold truncate
  rw [Int.tdiv_eq_ediv_of_nonneg (Rat.num_nonneg.mpr h)]
  exact Rat.floor_def'.symm

theorem round_eq (h : 0 ≤ q) : round q = ⌊q + 1 / 2⌋ := by
  have hnum : 0 ≤ q.num := Rat.num_nonneg.mpr h
  have hden : (q.den : Rat) ≠ 0 := Nat.cast_ne_zero.mpr q.den_ne_zero
  have hq : q + 1 / 2 = (2 * q.num + q.den : Int) / (2 * q.den : Nat) := by
    push_cast
    nth_rewrite 1 [← Rat.num_div_den q]
    field_simp
  rw [hq, Rat.floor_intCast_div_natCast]
  unfold round Binary64.signed Rounding.halfUp
  rw [decide_eq_false (not_lt.mpr hnum)]
  push_cast
  rw [abs_of_nonneg hnum]

theorem round_mono (hp : 0 ≤ p) (h : p ≤ q) : round p ≤ round q := by
  rw [round_eq hp, round_eq (hp.trans h)]
  exact Int.floor_le_floor (by linarith)

theorem mem_truncate {m n : Nat} (hle : ((m : Int) : Rat) ≤ q) (hge : q ≤ ((n : Int) : Rat)) :
    m ≤ (truncate q).toNat ∧ (truncate q).toNat ≤ n := by
  have hq : 0 ≤ q := (Int.cast_nonneg (Int.natCast_nonneg m)).trans hle
  have hlow : (m : Int) ≤ ⌊q⌋ := Int.le_floor.mpr hle
  have hhigh : ⌊q⌋ ≤ (n : Int) := Int.floor_le_iff.mpr (by linarith)
  rw [truncate_eq hq]
  omega

theorem le_toWord {m : Nat} (hle : ((m : Int) : Rat) ≤ q) (hfits : q < Word.count) :
    m ≤ toWord q := by
  have hq : 0 ≤ q := (Int.cast_nonneg (Int.natCast_nonneg m)).trans hle
  have hfloor : truncate q = ⌊q⌋ := truncate_eq hq
  have hlow : (m : Int) ≤ ⌊q⌋ := Int.le_floor.mpr hle
  have hhigh : ⌊q⌋ < (Word.count : Nat) := Int.floor_lt.mpr (by exact_mod_cast hfits)
  unfold toWord
  dsimp only
  rw [hfloor, if_pos ⟨by omega, hhigh⟩]
  omega

theorem round_nonneg (h : 0 ≤ q) : 0 ≤ round q := by
  rw [round_eq h]
  exact Int.floor_nonneg.mpr (by linarith)

end LoadGenerator.Fraction
