import LoadGenerator.Proofs.Metrics.Histogram

namespace LoadGenerator.Metrics.Bucket

variable {i j k m v : Nat}

def last : Nat := index Word.largest

theorem last_eq : last = 7423 := by decide +kernel

theorem index_le_last (hv : v < Word.count) : index v ≤ last := index_mono (Nat.le_sub_one_of_lt hv)

theorem shifted_least (hk : 1 ≤ k) (hm : perPower ≤ m) (hlt : m < linear) :
    Shifted k m (m * 2 ^ k) where
  shift_pos := hk
  le_mantissa := hm
  mantissa_lt := hlt
  le_value := le_rfl
  value_lt := Nat.mul_lt_mul_of_pos_right (Nat.lt_succ_self m) (Nat.two_pow_pos k)

theorem shift_le_iff (h : linear ≤ j) : shift j ≤ 56 ↔ j ≤ last := by
  rw [last_eq, shift]
  simp only [linear, perPower] at *
  omega

theorem exists_place (h : linear ≤ j) :
    ∃ m, j = place (shift j) m ∧ Shifted (shift j) m (m * 2 ^ shift j) := by
  have hrest : (j - linear) % perPower < perPower := Nat.mod_lt _ (by decide)
  refine ⟨(j - linear) % perPower + perPower, ?_, ?_⟩
  · have hdiv := Nat.div_add_mod' (j - linear) perPower
    rw [place, shift, Nat.add_sub_cancel, Nat.add_sub_cancel]
    omega
  · exact shifted_least (Nat.le_add_left 1 _) (Nat.le_add_left _ _) (Nat.add_lt_add_right hrest _)

theorem bucket_cases (h : j ≤ last) :
    (j < linear ∧ lower j = j ∧ width j = 1) ∨
      ∃ k m, Shifted k m (lower j) ∧ k ≤ 56 ∧ j = place k m ∧ lower j = m * 2 ^ k ∧
        width j = 2 ^ k := by
  by_cases hj : j < linear
  · exact .inl ⟨hj, if_pos hj, if_pos hj⟩
  · have hj := Nat.not_lt.mp hj
    obtain ⟨m, hplace, hs⟩ := exists_place hj
    have hk := (shift_le_iff hj).mpr h
    have hindex : index (m * 2 ^ shift j) = j := hs.index_eq.trans hplace.symm
    have hlower : lower j = m * 2 ^ shift j := by rw [← hs.lower_eq hk, hindex]
    have hwidth : width j = 2 ^ shift j := by rw [← hs.width_eq hk, hindex]
    exact .inr ⟨shift j, m, hlower ▸ hs, hk, hplace, hlower, hwidth⟩

theorem lower_place (hk : 1 ≤ k) (hk' : k ≤ 56) (hm : perPower ≤ m) (hlt : m < linear) :
    lower (place k m) = m * 2 ^ k := by
  have hs := shifted_least hk hm hlt
  rw [← hs.index_eq, hs.lower_eq hk']

theorem index_eq_of_mem (hi : i ≤ last) (hlow : lower i ≤ v) (hlt : v < lower i + width i) :
    index v = i := by
  obtain ⟨hi, hl, hw⟩ | ⟨k, m, hs, -, hplace, hl, hw⟩ := bucket_cases hi
  · rw [hl] at hlow hlt
    rw [hw] at hlt
    obtain rfl : v = i := by omega
    exact index_of_lt hi
  · rw [hl] at hlow hlt
    rw [hw, ← Nat.succ_mul] at hlt
    have hv : Shifted k m v := ⟨hs.shift_pos, hs.le_mantissa, hs.mantissa_lt, hlow, hlt⟩
    rw [hv.index_eq, hplace]

theorem width_pos (hi : i ≤ last) : 0 < width i := by
  obtain ⟨-, -, hw⟩ | ⟨k, m, -, -, -, -, hw⟩ := bucket_cases hi
  · exact hw ▸ Nat.one_pos
  · exact hw ▸ Nat.two_pow_pos k

theorem index_lower (hj : j ≤ last) : index (lower j) = j :=
  index_eq_of_mem hj (Nat.le_refl _) (Nat.lt_add_of_pos_right (width_pos hj))

theorem place_add_one (hm : perPower ≤ m) : place k m + 1 = place k (m + 1) := by
  rw [place, place]
  omega

theorem place_add_one_of_eq (hk : 1 ≤ k) (hm : m + 1 = linear) :
    place k m + 1 = place (k + 1) perPower := by
  rw [place, place]
  simp only [linear, perPower] at *
  omega

theorem shift_le_of_place_le (h : place k m ≤ last) : k ≤ 56 := by
  rw [last_eq, place] at h
  simp only [linear, perPower] at h
  omega

theorem lower_add_one (hj : j < last) : lower (j + 1) = lower j + width j := by
  obtain ⟨hlt, hl, hw⟩ | ⟨k, m, hs, hk, hplace, hl, hw⟩ := bucket_cases hj.le
  · rw [hl, hw]
    rcases (show j + 1 ≤ linear from hlt).lt_or_eq with h | h
    · exact if_pos h
    · rw [h]
      decide
  · rw [hl, hw, hplace]
    rcases (show m + 1 ≤ linear from hs.mantissa_lt).lt_or_eq with h | h
    · have hm := hs.le_mantissa
      rw [place_add_one hm, lower_place hs.shift_pos hk (Nat.le_succ_of_le hm) h, Nat.succ_mul]
    · have hnext := place_add_one_of_eq hs.shift_pos h
      have hk' : k + 1 ≤ 56 := by
        refine shift_le_of_place_le (m := perPower) ?_
        rw [← hnext, ← hplace]
        exact hj
      calc lower (place k m + 1) = perPower * 2 ^ (k + 1) := by
            rw [hnext, lower_place (Nat.le_add_left 1 k) hk' (Nat.le_refl _) (by decide)]
        _ = linear * 2 ^ k := by rw [pow_succ', ← Nat.mul_assoc, linear, perPower]
        _ = m * 2 ^ k + 2 ^ k := by rw [← h, Nat.succ_mul]

theorem perPower_mul_width_le (hlin : linear ≤ j) (hj : j ≤ last) :
    perPower * width j ≤ lower j := by
  obtain ⟨hlt, -⟩ | ⟨k, m, hs, -, -, hl, hw⟩ := bucket_cases hj
  · exact absurd hlt (Nat.not_lt.mpr hlin)
  · rw [hl, hw]
    exact Nat.mul_le_mul_right _ hs.le_mantissa

theorem lower_lt_perPower_mul_width (hj : last < j) (hshift : shift j < 64) :
    lower j < perPower * width j := by
  have hlin : linear ≤ j := by
    rw [last_eq] at hj
    rw [linear]
    omega
  have hk : 57 ≤ shift j := by
    have := (shift_le_iff hlin).not.mpr (Nat.not_le.mpr hj)
    omega
  have hpow : 2 ^ shift j < Word.count := Nat.pow_lt_pow_right (by decide) hshift
  have hwidth : width j = 2 ^ shift j := by
    rw [width, if_neg (Nat.not_lt.mpr hlin), shiftWord, Nat.mod_eq_of_lt hshift, Nat.shiftLeft_eq,
      one_mul, Nat.mod_eq_of_lt hpow]
  have hlower : lower j < Word.count := by
    rw [lower, if_neg (Nat.not_lt.mpr hlin), shiftWord]
    exact Nat.mod_lt _ (by decide)
  calc lower j < Word.count := hlower
    _ = perPower * 2 ^ 57 := by decide
    _ ≤ perPower * 2 ^ shift j := Nat.mul_le_mul_left _ (Nat.pow_le_pow_right (by decide) hk)
    _ = perPower * width j := by rw [hwidth]

theorem exists_counted (S : List Nat) (v : Nat) : ∃ n,
    (Histogram.ofSamples S).counts[index (clampUs v)]? = some n ∧
      ((Histogram.ofSamples S).recordUs v).counts[index (clampUs v)]? = some (n + 1) := by
  have hslot : index (clampUs v) < (Histogram.ofSamples S).counts.size := by
    rw [Histogram.size_ofSamples]
    exact index_lt_count (Histogram.clampUs_mem v).2
  refine ⟨_, Array.getElem?_eq_getElem hslot, ?_⟩
  rw [Histogram.recordUs, Histogram.add, Array.getElem?_modify]
  simp [hslot]

/-- The buckets divide the words among them. -/
structure DivideWords : Prop where
  mem : ∀ v < Word.count, lower (index v) ≤ v ∧ v < lower (index v) + width (index v)
  index_eq : ∀ v, ∀ i ≤ last, lower i ≤ v → v < lower i + width i → index v = i
  index_mono : ∀ u v, u ≤ v → index u ≤ index v
  index_le : ∀ v < Word.count, index v ≤ last
  index_lower : ∀ j ≤ last, index (lower j) = j
  lower_next : ∀ j < last, lower (j + 1) = lower j + width j
  narrow : ∀ j, linear ≤ j → j ≤ last → perPower * width j ≤ lower j
  wide : ∀ j, last < j → shift j < 64 → lower j < perPower * width j
  inArray : ∀ v ≤ mostUs, index v < count
  counted : ∀ calls v, ∃ n, (Histogram.ofCalls calls).counts[index (clampUs v)]? = some n ∧
    ((Histogram.ofCalls calls).recordUs v).counts[index (clampUs v)]? = some (n + 1)

theorem divide_words : DivideWords where
  mem _ hv := ⟨lower_index_le hv, lt_lower_add_width hv⟩
  index_eq _ _ hi := index_eq_of_mem hi
  index_mono _ _ := index_mono
  index_le _ := index_le_last
  index_lower _ := index_lower
  lower_next _ := lower_add_one
  narrow _ := perPower_mul_width_le
  wide _ := lower_lt_perPower_mul_width
  inArray _ := index_lt_count
  counted calls v := by
    rw [Histogram.ofCalls_eq]
    exact exists_counted _ v

/-- The bucket after the last one would begin past all words, and in a word that is zero. -/
theorem wide_past_last :
    linear ≤ 7424 ∧ lower 7424 = 0 ∧ ¬perPower * width 7424 ≤ lower 7424 := by
  decide

end LoadGenerator.Metrics.Bucket
