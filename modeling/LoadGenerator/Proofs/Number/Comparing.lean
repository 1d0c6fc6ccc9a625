import LoadGenerator.Proofs.Number.Rounds

namespace LoadGenerator

namespace Binary64

open Float.Model Float.Model.UnpackedFloat

variable {m n : Nat} {e f k : Int}

theorem size_lt_of_exponent_lt (h : Canonical m e) (h' : Canonical n f) (hef : e < f) :
    (m : Rat) * 2 ^ e < n * 2 ^ f := by
  have hm : (m : Rat) < 2 ^ 53 := by exact_mod_cast h.lt
  have hn : (2 : Rat) ^ 52 ≤ n := by
    have := h.le
    exact_mod_cast h'.normal.resolve_left (by omega)
  calc (m : Rat) * 2 ^ e
    _ < 2 ^ 53 * 2 ^ e := mul_lt_mul_of_pos_right hm (two_zpow_pos e)
    _ = 2 ^ 52 * 2 ^ (e + 1) := by
      rw [two_zpow_succ rfl]
      ring
    _ ≤ n * 2 ^ f :=
      mul_le_mul hn (two_zpow_le hef) (two_zpow_pos _).le (Nat.cast_nonneg n)

theorem finite_lt_iff (h : Canonical m e) (h' : Canonical n f) :
    (UnpackedFloat.finite .positive m e h.pos).lt (.finite .positive n f h'.pos) = true ↔
      (m : Rat) * 2 ^ e < n * 2 ^ f := by
  have hrank : (UnpackedFloat.finite .positive m e h.pos).lt (.finite .positive n f h'.pos) = true ↔
      e < f ∨ e = f ∧ m < n := by
    rw [UnpackedFloat.lt, UnpackedFloat.compare, beq_iff_eq, Option.some.injEq,
      Ordering.then_eq_lt, compare_lt_iff_lt, compare_eq_iff_eq, compare_lt_iff_lt]
  rw [hrank]
  obtain hlt | rfl | hlt := lt_trichotomy e f
  · exact iff_of_true (.inl hlt) (size_lt_of_exponent_lt h h' hlt)
  · rw [mul_lt_mul_iff_left₀ (two_zpow_pos e), Nat.cast_lt]
    omega
  · exact iff_of_false (by omega) (size_lt_of_exponent_lt h' h hlt).not_gt

theorem zero_lt_stored_round (hn : n ≠ 0) (hk : -1074 ≤ k) :
    (UnpackedFloat.zero .positive).lt
      (stored (UnpackedFloat.round Format.binary64 .positive n k)) = true := by
  obtain ⟨r, hr, heq⟩ := exists_round .positive hn k
  have hpos : 1 ≤ r := by
    refine hr.ge 1 ?_
    rw [one_mul]
    have hle : 2 ^ (exponentOf n k - k).toNat ≤ n := by
      refine (Nat.pow_le_pow_right two_pos ?_).trans (Nat.log2_self_le hn)
      unfold exponentOf
      omega
    exact hle.trans (Nat.le_mul_of_pos_right n (Nat.two_pow_pos _))
  rw [heq]
  obtain ⟨hzero, -⟩ | ⟨m', e', h', hfinite, -⟩ :=
    settle_cases .positive (hr.le_two_pow hn) (neg_le_exponentOf _ _) (hr.normal hn)
  · omega
  · rw [hfinite, stored_finite _ h']
    split <;> rfl

theorem stored_round_le_zero (hn : n ≠ 0) :
    (stored (UnpackedFloat.round Format.binary64 .negative n k)).le (.zero .positive) = true := by
  obtain ⟨r, hr, heq⟩ := exists_round .negative hn k
  rw [heq]
  obtain ⟨-, hzero⟩ | ⟨m', e', h', hfinite, -⟩ :=
    settle_cases .negative (hr.le_two_pow hn) (neg_le_exponentOf _ _) (hr.normal hn)
  · rw [hzero, stored_zero]
    rfl
  · rw [hfinite, stored_finite _ h']
    split <;> rfl

theorem stored_normalize_cases (hk : -1074 ≤ k) (a : Int) :
    (0 < a ∧ (UnpackedFloat.zero .positive).lt
      (stored (UnpackedFloat.normalize Format.binary64 a k .positive)) = true) ∨
    (a ≤ 0 ∧ (stored (UnpackedFloat.normalize Format.binary64 a k .positive)).le
      (.zero .positive) = true) := by
  obtain hlt | rfl | hlt := lt_trichotomy 0 a
  · rw [normalize_of_pos hlt]
    exact .inl ⟨hlt, zero_lt_stored_round (by omega) hk⟩
  · rw [normalize_zero, stored_zero]
    exact .inr ⟨le_rfl, rfl⟩
  · rw [normalize_of_neg hlt]
    exact .inr ⟨hlt.le, stored_round_le_zero (by omega)⟩

theorem stored_sub_cases (h : Canonical m e) (h' : Canonical n f) :
    ((n : Rat) * 2 ^ f < m * 2 ^ e ∧ (UnpackedFloat.zero .positive).lt (stored
      (sub Format.binary64 (.finite .positive m e h.pos) (.finite .positive n f h'.pos))) = true) ∨
    (¬(n : Rat) * 2 ^ f < m * 2 ^ e ∧ (stored
      (sub Format.binary64 (.finite .positive m e h.pos) (.finite .positive n f h'.pos))).le
        (.zero .positive) = true) := by
  have hscale {a : Nat} {x : Int} (hx : min e f ≤ x) :
      ((a * 2 ^ (x - min e f).toNat : Nat) : Rat) * 2 ^ min e f = a * 2 ^ x := by
    have hexp : ((x - min e f).toNat : Int) + min e f = x := by omega
    push_cast
    rw [mul_assoc, two_pow_mul_two_zpow, hexp]
  have hsign (a : Nat) : Sign.positive.apply a = (a : Int) := rfl
  rw [sub_finite, hsign, ← hscale (a := m) (min_le_left e f), ← hscale (a := n) (min_le_right e f),
    mul_lt_mul_iff_left₀ (two_zpow_pos _), Nat.cast_lt]
  generalize m * 2 ^ (e - min e f).toNat = a
  generalize n * 2 ^ (f - min e f).toNat = b
  refine (stored_normalize_cases (le_min h.le h'.le) (a - b)).imp ?_ ?_
  · exact And.imp_left (by omega)
  · exact And.imp_left (by omega)

end Binary64

namespace Double

open Binary64 Float.Model Float.Model.UnpackedFloat

theorem not_lt {x y : Double} (hx : Scalar.isNumber x = true) (hy : Scalar.isNumber y = true) :
    ¬x < y ↔ y ≤ x := by
  rw [Scalar.isNumber, decide_eq_true_iff, le_iff, Binary64.le_iff] at hx hy
  obtain ⟨a, ha, -⟩ := hx
  obtain ⟨b, hb, -⟩ := hy
  rw [lt_iff, le_iff, Binary64.lt_iff, Binary64.le_iff]
  rw [Option.mem_def] at ha hb
  simp [ha, hb]

theorem unpack_sub_ten {x : Double} (hx : x.value.toModel.unpack ≠ .notANumber) :
    (x - Scalar.ofInt 10).value.toModel.unpack = stored (sub Format.binary64 x.value.toModel.unpack
      (.finite .positive (10 * 2 ^ 49) (-49) canonical_ten.pos)) := by
  have hvalue : (x - Scalar.ofInt 10).value = x.value - (Scalar.ofInt 10 : Double).value :=
    value_lift _ hx (unpack_ten ▸ nofun)
  rw [hvalue, unpack_sub, unpack_ten]

theorem sub_ten_cases {x : Double} (hx : Scalar.isNumber x = true) :
    (Scalar.ofInt 10 < x ∧ Scalar.zero < x - Scalar.ofInt 10) ∨
      (x ≤ Scalar.ofInt 10 ∧ x - Scalar.ofInt 10 ≤ Scalar.zero) := by
  have hzero : (Scalar.zero : Double).value.toModel.unpack = .zero .positive := rfl
  have hle : x ≤ Scalar.zero → x - Scalar.ofInt 10 ≤ Scalar.zero := sub_ten_le
  have hnumber : x.value.toModel.unpack ≠ .notANumber := by
    intro hu
    rw [isNumber_iff, exact_eq, hu] at hx
    exact hx rfl
  have hsub := unpack_sub_ten hnumber
  rw [← not_lt (by decide) hx]
  simp only [lt_iff, le_iff] at hle ⊢
  rw [hsub] at hle ⊢
  rw [hzero, unpack_ten] at *
  cases hu : x.value.toModel.unpack with
  | notANumber => exact absurd hu hnumber
  | infinity s =>
    rw [hu] at hle
    cases s with
    | positive => exact .inl ⟨rfl, by decide⟩
    | negative => exact .inr ⟨nofun, hle rfl⟩
  | zero s =>
    rw [hu] at hle
    exact .inr ⟨nofun, hle rfl⟩
  | finite s m e hm =>
    rw [hu] at hle
    obtain ⟨hc, -⟩ := canonical_of_unpack _ hu
    cases s with
    | positive =>
      rw [finite_lt_iff canonical_ten hc]
      exact stored_sub_cases hc canonical_ten
    | negative => exact .inr ⟨nofun, hle rfl⟩

end Double

end LoadGenerator
