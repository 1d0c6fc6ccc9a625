import LoadGenerator.Proofs.Number.Comparing

namespace LoadGenerator

namespace Binary64

variable {m : Nat} {e : Int} {negative : Bool}

theorem quotient_div (m : Nat) (e : Int) :
    ((quotient m e).1 / (quotient m e).2 : Rat) = m * 2 ^ e := by
  have hd : ((quotient m e).2 : Rat) ≠ 0 := Nat.cast_ne_zero.mpr (quotient_pos m e).ne'
  have hmul := quotient_mul m (-e)
  rw [neg_neg, zpow_neg] at hmul
  have he := (two_zpow_pos e).ne'
  field_simp at hmul ⊢
  linarith

theorem quotient_zero (e : Int) : (quotient 0 e).1 = 0 := by
  unfold quotient
  split
  · exact Nat.zero_shiftLeft _
  · rfl

theorem signed_of_zero {a : Nat} (h : negative = true → a = 0) : signed negative a = a := by
  cases negative with
  | false => rfl
  | true =>
    rw [h rfl]
    rfl

theorem truncate?_finite (h : ¬(finite negative m e).BelowZero) :
    (finite negative m e).truncate? = some ⌊(m * 2 ^ e : Rat)⌋ := by
  have hzero : negative = true → (quotient m e).1 / (quotient m e).2 = 0 := fun hnegative => by
    obtain rfl : m = 0 := not_not.mp fun hm => h ⟨hnegative, hm⟩
    rw [quotient_zero, Nat.zero_div]
  change some (signed negative ((quotient m e).1 / (quotient m e).2)) = _
  rw [signed_of_zero hzero, ← quotient_div, Rat.floor_natCast_div_natCast]
  rfl

theorem round?_finite (h : ¬(finite negative m e).BelowZero) :
    (finite negative m e).round? = some ⌊(m * 2 ^ e + 1 / 2 : Rat)⌋ := by
  have hd := quotient_pos m e
  have hzero : negative = true →
      Rounding.halfUp (quotient m e).1 (quotient m e).2 = 0 := fun hnegative => by
    obtain rfl : m = 0 := not_not.mp fun hm => h ⟨hnegative, hm⟩
    rw [quotient_zero, Rounding.halfUp]
    exact Nat.div_eq_of_lt (by omega)
  have hq : (m * 2 ^ e + 1 / 2 : Rat) =
      ((2 * (quotient m e).1 + (quotient m e).2 : Nat) : Rat) / (2 * (quotient m e).2 : Nat) := by
    have hd' : ((quotient m e).2 : Rat) ≠ 0 := Nat.cast_ne_zero.mpr hd.ne'
    rw [← quotient_div]
    push_cast
    field_simp
  change some (signed negative (Rounding.halfUp (quotient m e).1 (quotient m e).2)) = _
  rw [signed_of_zero hzero, hq, Rat.floor_natCast_div_natCast]
  rfl

theorem add_half_lt (h : Canonical m e) (hlt : (m * 2 ^ e : Rat) < 2 ^ 63) :
    (m * 2 ^ e + 1 / 2 : Rat) < 2 ^ 63 := by
  have he : e ≤ 10 := by
    by_contra he
    have hm : (2 : Rat) ^ 52 ≤ m := by exact_mod_cast h.normal.resolve_left (by omega)
    have hpow : (2 : Rat) ^ (11 : Int) ≤ 2 ^ e := two_zpow_le (by omega)
    have := mul_le_mul hm hpow (two_zpow_pos _).le (Nat.cast_nonneg m)
    norm_num at this hlt
    linarith
  have hm : (m : Rat) ≤ 2 ^ 53 - 1 := by
    have : m + 1 ≤ 2 ^ 53 := h.lt
    have : (m : Rat) + 1 ≤ 2 ^ 53 := by exact_mod_cast this
    linarith
  have hpow : (2 : Rat) ^ e ≤ 2 ^ (10 : Int) := two_zpow_le he
  have := mul_le_mul hm hpow (two_zpow_pos _).le (by norm_num)
  norm_num at this ⊢
  linarith

theorem toInt64_cases {n : Int} (h : 0 ≤ n) :
    (n < Word.half ∧ toInt64 (some n) = n) ∨
      (¬n < Word.half ∧ toInt64 (some n) = -(Word.half : Int)) := by
  rw [toInt64]
  by_cases hn : n < Word.half
  · exact .inl ⟨hn, if_pos ⟨by omega, hn⟩⟩
  · exact .inr ⟨hn, if_neg fun h => hn h.2⟩

end Binary64

namespace Double

open Binary64 Float.Model Float.Model.UnpackedFloat

/-- The double in a word: the whole number `f` makes of it, or, where it reaches `2 ^ 63`, the least
number there is. -/
def InWord (f : Rat → Int) (x : Double) (n : Int) : Prop :=
  (x < Scalar.ofInt Word.half ∧ n = f x.exact.size ∧ 0 ≤ n ∧ n < Word.half) ∨
    (¬x < Scalar.ofInt Word.half ∧ n = -(Word.half : Int))

theorem unpack_half : (Scalar.ofInt Word.half : Double).value.toModel.unpack =
    .finite .positive (2 ^ 52) 11 (by decide) := rfl

theorem canonical_half : Canonical (2 ^ 52) 11 :=
  ⟨by decide, by decide, by decide, .inr le_rfl⟩

theorem lt_half_cases {x : Double} (hx : ¬x.exact.BelowZero) :
    (∃ negative m e, x.exact = .finite negative m e ∧
      (x < Scalar.ofInt Word.half ↔ (m * 2 ^ e : Rat) < 2 ^ 63) ∧
      ((m * 2 ^ e : Rat) < 2 ^ 63 → (m * 2 ^ e + 1 / 2 : Rat) < 2 ^ 63)) ∨
    (x.exact.truncate? = none ∧ x.exact.round? = none ∧ ¬x < Scalar.ofInt Word.half) := by
  have hhalf : ((2 ^ 52 : Nat) : Rat) * 2 ^ (11 : Int) = 2 ^ 63 := by norm_num
  rw [exact_eq] at hx
  rw [exact_eq, lt_iff, unpack_half]
  cases hu : x.value.toModel.unpack with
  | notANumber => exact .inr ⟨rfl, rfl, nofun⟩
  | infinity s =>
    cases s with
    | positive => exact .inr ⟨rfl, rfl, nofun⟩
    | negative =>
      rw [hu] at hx
      exact absurd rfl hx
  | zero s =>
    refine .inl ⟨_, 0, _, rfl, ?_⟩
    norm_num
    exact rfl
  | finite s m e hm =>
    obtain ⟨hc, -⟩ := canonical_of_unpack _ hu
    cases s with
    | positive =>
      refine .inl ⟨_, m, e, rfl, ?_, add_half_lt hc⟩
      rw [finite_lt_iff hc canonical_half, hhalf]
    | negative =>
      rw [hu] at hx
      exact absurd ⟨rfl, hm.ne'⟩ hx

theorem inWord_of_iff {f : Rat → Int} {x : Double} (hpos : 0 ≤ f x.exact.size)
    (hlt : x < Scalar.ofInt Word.half ↔ f x.exact.size < Word.half) :
    InWord f x (toInt64 (some (f x.exact.size))) := by
  obtain ⟨hn, heq⟩ | ⟨hn, heq⟩ := toInt64_cases hpos
  · rw [heq]
    exact .inl ⟨hlt.mpr hn, rfl, hpos, hn⟩
  · rw [heq]
    exact .inr ⟨mt hlt.mp hn, rfl⟩

theorem floor_lt_half (q : Rat) : ⌊q⌋ < (Word.half : Int) ↔ q < 2 ^ 63 := by
  have hhalf : Word.half = 2 ^ 63 := by decide
  rw [Int.floor_lt, hhalf]
  norm_num

theorem size_nonneg (b : Binary64) : 0 ≤ b.size := by
  cases b with
  | finite negative m e => exact mul_nonneg (Nat.cast_nonneg m) (two_zpow_pos e).le
  | infinite | notNumber => exact le_rfl

theorem inWord_truncate {x : Double} (hx : ¬x < Scalar.zero) :
    InWord Int.floor x (Scalar.truncate x) := by
  have htruncate : Scalar.truncate x = toInt64 x.exact.truncate? := rfl
  rw [lt_zero_iff] at hx
  rw [htruncate]
  obtain ⟨negative, m, e, hexact, hlt, -⟩ | ⟨hnone, -, hnot⟩ := lt_half_cases hx
  · have hsize : x.exact.size = m * 2 ^ e := congrArg size hexact
    rw [hexact] at hx
    rw [hexact, truncate?_finite hx, ← hsize]
    refine inWord_of_iff (Int.floor_nonneg.mpr (size_nonneg _)) ?_
    rw [hlt, floor_lt_half, hsize]
  · rw [hnone]
    exact .inr ⟨hnot, rfl⟩

theorem inWord_round {x : Double} (hx : ¬x < Scalar.zero) :
    InWord (fun q => ⌊q + 1 / 2⌋) x (Scalar.round x) := by
  have hround : Scalar.round x = toInt64 x.exact.round? := rfl
  rw [lt_zero_iff] at hx
  rw [hround]
  obtain ⟨negative, m, e, hexact, hlt, hhalf⟩ | ⟨-, hnone, hnot⟩ := lt_half_cases hx
  · have hsize : x.exact.size = m * 2 ^ e := congrArg size hexact
    rw [hexact] at hx
    rw [hexact, round?_finite hx, ← hsize]
    refine inWord_of_iff (f := fun q => ⌊q + 1 / 2⌋) ?_ ?_
    · have := size_nonneg x.exact
      exact Int.floor_nonneg.mpr (by linarith)
    · rw [hlt, floor_lt_half, hsize]
      exact ⟨hhalf, fun h => by linarith⟩
  · rw [hnone]
    exact .inr ⟨hnot, rfl⟩

theorem size_le_of_not_lt {x y : Double} {negative : Bool} {n : Nat} {f : Int}
    (hx : ¬x < Scalar.zero) (hy : ¬y < Scalar.zero) (hyx : ¬y < x)
    (hfinite : y.exact = .finite negative n f) : x.exact.size ≤ n * 2 ^ f := by
  have hnonneg : (0 : Rat) ≤ n * 2 ^ f := size_nonneg (.finite negative n f)
  rw [lt_zero_iff] at hx hy
  rw [exact_eq] at hx hy hfinite ⊢
  rw [lt_iff] at hyx
  cases hu : x.value.toModel.unpack with
  | notANumber | infinity s => exact hnonneg
  | zero s =>
    change ((0 : Nat) : Rat) * 2 ^ (-1074 : Int) ≤ _
    rwa [Nat.cast_zero, zero_mul]
  | finite s m e hm =>
    rw [hu] at hx hyx
    cases s with
    | negative => exact absurd ⟨rfl, hm.ne'⟩ hx
    | positive =>
      cases hv : y.value.toModel.unpack with
      | notANumber | infinity s =>
        rw [hv] at hfinite
        cases hfinite
      | zero s =>
        rw [hv] at hyx
        exact absurd rfl hyx
      | finite s' n' f' hn =>
        rw [hv] at hy hyx hfinite
        cases s' with
        | negative => exact absurd ⟨rfl, hn.ne'⟩ hy
        | positive =>
          cases hfinite
          rw [finite_lt_iff (canonical_of_unpack _ hv).1 (canonical_of_unpack _ hu).1] at hyx
          exact le_of_not_gt hyx

theorem mul_size_le {x y k : Double} {negative : Bool} {m : Nat} {e : Int}
    (hk : Normal k.value.toModel.unpack) (hx : ¬x < Scalar.zero) (hy : ¬y < Scalar.zero)
    (hyx : ¬y < x) (hfinite : (y * k).exact = .finite negative m e) :
    (x * k).exact.size ≤ m * 2 ^ e := by
  have hnonneg : (0 : Rat) ≤ m * 2 ^ e := size_nonneg (.finite negative m e)
  have hscaled := scaled_mul x hk
  have hscaled' := scaled_mul y hk
  rw [hfinite] at hscaled'
  cases hb : y.exact with
  | infinite s | notNumber =>
    rw [hb] at hscaled'
    cases hscaled'
  | finite s n f =>
    have hle := size_le_of_not_lt hx hy hyx hb
    rw [hb] at hscaled'
    cases ha : x.exact with
    | infinite s | notNumber =>
      rw [ha] at hscaled
      rw [show (x * k).exact = _ from hscaled]
      exact hnonneg
    | finite s m e =>
      rw [ha] at hscaled hle
      exact hscaled.size_le hscaled' (mul_le_mul_of_nonneg_right hle (size_nonneg _))

variable {f : Rat → Int} {x y : Double} {m n : Int}

theorem InWord.le_iff (hf : Monotone f) (hx : InWord f x m) (hy : InWord f y n)
    (hxy : y < Scalar.ofInt Word.half → x.exact.size ≤ y.exact.size) :
    m ≤ n ↔ (x < Scalar.ofInt Word.half → y < Scalar.ofInt Word.half) := by
  have hhalf : 0 < Word.half := by decide
  obtain ⟨hxlt, hm, hnonneg, -⟩ | ⟨hxlt, hm⟩ := hx
  · obtain ⟨hylt, hn, -, -⟩ | ⟨hylt, hn⟩ := hy
    · refine iff_of_true ?_ fun _ => hylt
      rw [hm, hn]
      exact hf (hxy hylt)
    · refine iff_of_false ?_ fun h => hylt (h hxlt)
      omega
  · refine iff_of_true ?_ fun h => absurd h hxlt
    obtain ⟨-, -, hnonneg, -⟩ | ⟨-, hn⟩ := hy <;> omega

/-- Whole numbers of products keep the order of the factors, unless the greater does not fit in a
word and the smaller does. -/
theorem round_mul_le_iff {k : Double} (hk : Normal k.value.toModel.unpack)
    (hx : ¬x < Scalar.zero) (hy : ¬y < Scalar.zero) (hyx : ¬y < x) :
    (Scalar.round (x * k) : Int) ≤ Scalar.round (y * k) ↔
      (x * k < Scalar.ofInt Word.half → y * k < Scalar.ofInt Word.half) := by
  have hfloor : Monotone fun q : Rat => ⌊q + 1 / 2⌋ := fun p q hpq =>
    Int.floor_mono (by linarith)
  refine (inWord_round (not_negative_mul hx hk)).le_iff hfloor
    (inWord_round (not_negative_mul hy hk)) fun hlt => ?_
  obtain ⟨negative, m, e, hexact, -⟩ | ⟨-, -, hnot⟩ :=
    lt_half_cases ((lt_zero_iff _).not.mp (not_negative_mul hy hk))
  · rw [hexact]
    exact mul_size_le hk hx hy hyx hexact
  · exact absurd hlt hnot

end Double

end LoadGenerator
