import LoadGenerator.Metrics.Histogram
import Mathlib.Data.Nat.Bitwise

namespace LoadGenerator.Metrics.Bucket

variable {k m v : Nat}

/-- A value that is shifted by `k` to get the mantissa `m`. -/
structure Shifted (k m v : Nat) : Prop where
  shift_pos : 1 ≤ k
  le_mantissa : perPower ≤ m
  mantissa_lt : m < linear
  le_value : m * 2 ^ k ≤ v
  value_lt : v < (m + 1) * 2 ^ k

def place (k m : Nat) : Nat := linear + (k - 1) * perPower + (m - perPower)

theorem octave_eq (k : Nat) : 2 ^ (k + 7) = 128 * 2 ^ k ∧ 2 ^ (k + 7 + 1) = 256 * 2 ^ k := by
  rw [add_assoc, pow_add, pow_add, mul_comm, mul_comm (2 ^ k)]
  exact ⟨rfl, rfl⟩

theorem index_of_lt (h : v < linear) : index v = v := if_pos h

theorem exists_shifted (h : linear ≤ v) : ∃ k m, Shifted k m v := by
  have hv : v ≠ 0 := by rintro rfl; exact absurd h (by decide)
  have hlog : 2 ^ v.log2 ≤ v ∧ v < 2 ^ (v.log2 + 1) := (Nat.log2_eq_iff hv).mp rfl
  have h8 : 8 ≤ v.log2 := (Nat.le_log2 hv).mpr h
  obtain ⟨k, hk⟩ : ∃ k, v.log2 = k + 7 := ⟨v.log2 - 7, by omega⟩
  rw [hk, (octave_eq k).1, (octave_eq k).2] at hlog
  have hpos : 0 < 2 ^ k := Nat.two_pow_pos k
  refine ⟨k, v / 2 ^ k, by omega, ?_, ?_, Nat.div_mul_le_self v _, ?_⟩
  · apply (Nat.le_div_iff_mul_le hpos).mpr
    rw [perPower]
    omega
  · apply (Nat.div_lt_iff_lt_mul hpos).mpr
    rw [linear]
    omega
  · rw [mul_comm]
    exact Nat.lt_mul_div_succ v hpos

theorem Shifted.octave (h : Shifted k m v) : 128 * 2 ^ k ≤ v ∧ v < 256 * 2 ^ k := by
  have hlow : 128 * 2 ^ k ≤ m * 2 ^ k := Nat.mul_le_mul_right _ h.le_mantissa
  have hhigh : (m + 1) * 2 ^ k ≤ 256 * 2 ^ k := Nat.mul_le_mul_right _ h.mantissa_lt
  exact ⟨hlow.trans h.le_value, h.value_lt.trans_le hhigh⟩

theorem Shifted.linear_le (h : Shifted k m v) : linear ≤ v := by
  have hk : 2 ^ 1 ≤ 2 ^ k := Nat.pow_le_pow_right (by decide) h.shift_pos
  have hv := h.octave.1
  rw [linear]
  omega

theorem Shifted.log2 (h : Shifted k m v) : v.log2 = k + 7 := by
  have hv : v ≠ 0 := by
    have := h.linear_le
    rw [linear] at this
    omega
  obtain ⟨hlow, hhigh⟩ := h.octave
  rw [Nat.log2_eq_iff hv, (octave_eq k).1, (octave_eq k).2]
  exact ⟨hlow, hhigh⟩

theorem Shifted.index_eq (h : Shifted k m v) : index v = place k m := by
  have hm : v >>> k = m := by
    rw [Nat.shiftRight_eq_div_pow]
    exact Nat.div_eq_of_lt_le h.le_value h.value_lt
  rw [index, if_neg (Nat.not_lt.mpr h.linear_le)]
  simp only [h.log2, Nat.add_sub_cancel, hm, place]

theorem Shifted.shift_le (h : Shifted k m v) {n : Nat} (hv : v < 256 * 2 ^ n) : k ≤ n := by
  by_contra hn
  have hk : 2 ^ (n + 1) ≤ 2 ^ k := Nat.pow_le_pow_right (by decide) (by omega)
  have hlow := h.octave.1
  rw [pow_succ] at hk
  omega

theorem Shifted.shift_le_word (h : Shifted k m v) (hv : v < Word.count) : k ≤ 56 := h.shift_le hv

theorem Shifted.lt_or_le {k' m' v' : Nat} (h : Shifted k m v) (h' : Shifted k' m' v')
    (hv : v ≤ v') : k < k' ∨ k = k' ∧ m ≤ m' := by
  have hkk : k ≤ k' := h.shift_le (hv.trans_lt h'.octave.2)
  rcases hkk.eq_or_lt with rfl | hlt
  · have hmm : m * 2 ^ k < (m' + 1) * 2 ^ k := (h.le_value.trans hv).trans_lt h'.value_lt
    exact .inr ⟨rfl, Nat.lt_succ_iff.mp (Nat.lt_of_mul_lt_mul_right hmm)⟩
  · exact .inl hlt

theorem linear_le_place (k m : Nat) : linear ≤ place k m := by
  rw [place]
  omega

theorem Shifted.shift_place (h : Shifted k m v) : shift (place k m) = k := by
  obtain ⟨hk, hm, hlt, -, -⟩ := h
  rw [shift, place]
  simp only [linear, perPower] at *
  omega

theorem Shifted.mantissa_place (h : Shifted k m v) :
    (place k m - linear) % perPower + perPower = m := by
  obtain ⟨hk, hm, hlt, -, -⟩ := h
  rw [place]
  simp only [linear, perPower] at *
  omega

theorem shiftWord_eq (hk : k ≤ 56) (hm : m < linear) : shiftWord m k = m * 2 ^ k := by
  have hpow : 2 ^ k ≤ 2 ^ 56 := Nat.pow_le_pow_right (by decide) hk
  have hlt : m * 2 ^ k < Word.count := by
    have h := Nat.mul_lt_mul_of_lt_of_le hm hpow (by decide)
    exact h.trans_eq (by decide)
  rw [shiftWord, Nat.mod_eq_of_lt (by omega : k < 64), Nat.shiftLeft_eq, Nat.mod_eq_of_lt hlt]

theorem Shifted.lower_eq (h : Shifted k m v) (hk : k ≤ 56) : lower (index v) = m * 2 ^ k := by
  rw [h.index_eq, lower, if_neg (Nat.not_lt.mpr (linear_le_place k m)), h.mantissa_place,
    h.shift_place, shiftWord_eq hk h.mantissa_lt]

theorem Shifted.width_eq (h : Shifted k m v) (hk : k ≤ 56) : width (index v) = 2 ^ k := by
  rw [h.index_eq, width, if_neg (Nat.not_lt.mpr (linear_le_place k m)), h.shift_place,
    shiftWord_eq hk (by decide), one_mul]

theorem lower_index_le (hv : v < Word.count) : lower (index v) ≤ v := by
  by_cases h : v < linear
  · rw [index_of_lt h, lower, if_pos h]
  · obtain ⟨k, m, hs⟩ := exists_shifted (Nat.not_lt.mp h)
    rw [hs.lower_eq (hs.shift_le_word hv)]
    exact hs.le_value

theorem lt_lower_add_width (hv : v < Word.count) :
    v < lower (index v) + width (index v) := by
  by_cases h : v < linear
  · rw [index_of_lt h, lower, width, if_pos h, if_pos h]
    exact Nat.lt_succ_self v
  · obtain ⟨k, m, hs⟩ := exists_shifted (Nat.not_lt.mp h)
    have hlt := hs.value_lt
    rw [hs.lower_eq (hs.shift_le_word hv), hs.width_eq (hs.shift_le_word hv)]
    rwa [add_mul, one_mul] at hlt

theorem index_mono {u v : Nat} (huv : u ≤ v) : index u ≤ index v := by
  by_cases hu : u < linear
  · rw [index_of_lt hu]
    by_cases hv : v < linear
    · rwa [index_of_lt hv]
    · obtain ⟨k, m, hs⟩ := exists_shifted (Nat.not_lt.mp hv)
      rw [hs.index_eq, place]
      omega
  · obtain ⟨k, m, hs⟩ := exists_shifted (Nat.not_lt.mp hu)
    obtain ⟨k', m', hs'⟩ := exists_shifted ((Nat.not_lt.mp hu).trans huv)
    have hm := hs.mantissa_lt
    have hk := hs.shift_pos
    rw [hs.index_eq, hs'.index_eq, place, place]
    rcases hs.lt_or_le hs' huv with hlt | ⟨rfl, hle⟩
    · simp only [linear, perPower] at *
      omega
    · omega

theorem index_lt_count (hv : v ≤ mostUs) : index v < count := by
  by_cases h : v < linear
  · rw [index_of_lt h]
    exact h.trans (by decide)
  · obtain ⟨k, m, hs⟩ := exists_shifted (Nat.not_lt.mp h)
    have hk : k ≤ 18 := hs.shift_le (hv.trans_lt (by decide))
    have hm := hs.mantissa_lt
    rw [hs.index_eq, place]
    simp only [linear, perPower, count] at *
    omega

def middle (i : Nat) : Nat := lower i + width i / 2

theorem middle_of_lt (h : v < linear) : middle (index v) = v := by
  rw [index_of_lt h, middle, lower, width, if_pos h, if_pos h]
  rfl

theorem Shifted.middle_eq (h : Shifted k m v) (hk : k ≤ 56) :
    middle (index v) = m * 2 ^ k + 2 ^ k / 2 := by
  rw [middle, h.lower_eq hk, h.width_eq hk]

/-- The middle of the bucket of a value is off by no more than one part in 256. -/
theorem middle_near (hv : v < Word.count) :
    256 * (middle (index v) - v) ≤ v ∧ 256 * (v - middle (index v)) ≤ v := by
  by_cases h : v < linear
  · rw [middle_of_lt h]
    omega
  · obtain ⟨k, m, hs⟩ := exists_shifted (Nat.not_lt.mp h)
    obtain ⟨j, rfl⟩ : ∃ j, k = j + 1 := ⟨k - 1, by have := hs.shift_pos; omega⟩
    have hlow := hs.le_value
    have hhigh := hs.value_lt
    have hoct := hs.octave.1
    rw [hs.middle_eq (hs.shift_le_word hv)]
    rw [add_mul, one_mul] at hhigh
    rw [pow_succ] at *
    omega

theorem middle_mono {u v : Nat} (huv : u ≤ v) (hv : v < Word.count) :
    middle (index u) ≤ middle (index v) := by
  by_cases hvl : v < linear
  · rwa [middle_of_lt hvl, middle_of_lt (huv.trans_lt hvl)]
  · obtain ⟨k', m', hs'⟩ := exists_shifted (Nat.not_lt.mp hvl)
    have hmid' := hs'.middle_eq (hs'.shift_le_word hv)
    have hlow' : 128 * 2 ^ k' ≤ m' * 2 ^ k' := Nat.mul_le_mul_right _ hs'.le_mantissa
    by_cases hul : u < linear
    · have hk : 2 ^ 1 ≤ 2 ^ k' := Nat.pow_le_pow_right (by decide) hs'.shift_pos
      rw [middle_of_lt hul, hmid']
      rw [linear] at hul
      omega
    · obtain ⟨k, m, hs⟩ := exists_shifted (Nat.not_lt.mp hul)
      rw [hmid', hs.middle_eq (hs.shift_le_word (huv.trans_lt hv))]
      rcases hs.lt_or_le hs' huv with hlt | ⟨rfl, hle⟩
      · -- the whole bucket of `u` lies below the power of two at which that of `v` begins
        have hpow : 2 ^ (k + 1) ≤ 2 ^ k' := Nat.pow_le_pow_right (by decide) hlt
        have hhigh : (m + 1) * 2 ^ k ≤ 256 * 2 ^ k := Nat.mul_le_mul_right _ hs.mantissa_lt
        rw [pow_succ] at hpow
        rw [add_mul, one_mul] at hhigh
        omega
      · have hle : m * 2 ^ k ≤ m' * 2 ^ k := Nat.mul_le_mul_right _ hle
        omega

end LoadGenerator.Metrics.Bucket
