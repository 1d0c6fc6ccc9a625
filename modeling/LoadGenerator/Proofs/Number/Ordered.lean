import LoadGenerator.Scalar.Rational
import LoadGenerator.Scalar.Double
import LoadGenerator.Proofs.Number.Rounding
import Mathlib.Data.Prod.Lex
import Mathlib.Algebra.Order.Ring.Rat
import Mathlib.Tactic.Linarith

namespace LoadGenerator

class Scalar.Ordered (α : Type) [Scalar α] : Prop where
  le_trans : ∀ {x y z : α}, x ≤ y → y ≤ z → x ≤ z
  not_lt_of_le : ∀ {x y : α}, x ≤ y → ¬y < x
  sub_ten_le : ∀ {x y : α}, x ≤ y → x - Scalar.ofInt 10 ≤ y

instance : Scalar.Ordered Rat where
  le_trans := Rat.le_trans
  not_lt_of_le := Rat.not_lt.mpr
  sub_ten_le {x y} h := by
    have hten : x - ((10 : Int) : Rat) ≤ x := by norm_num
    exact Rat.le_trans hten h

namespace Binary64

open Float.Model Float.Model.UnpackedFloat

/-- Where a double stands among all numbers, by sign and kind first, then by the exponent, then by
the mantissa. -/
def rank : UnpackedFloat → Option (Int ×ₗ Int ×ₗ Int)
  | .infinity s => some (toLex (s.apply 2, toLex (0, 0)))
  | .notANumber => none
  | .zero _ => some (toLex (0, toLex (0, 0)))
  | .finite s m e _ => some (toLex (s.apply 1, toLex (s.apply e, s.apply m)))

theorem compare_toLex (k e f : Int) (m n : Int) :
    compare (toLex (k, toLex (e, m))) (toLex (k, toLex (f, n))) =
      (compare e f).then (compare m n) := by
  simp [Prod.Lex.compare_def, compareLex, compareOn]

theorem compare_neg (e f : Int) : compare (-e) (-f) = (compare e f).swap := by
  rw [← Std.OrientedCmp.eq_swap, LinearOrder.compare_eq_compareOfLessAndEq,
    LinearOrder.compare_eq_compareOfLessAndEq]
  simp [compareOfLessAndEq, eq_comm]

theorem compare_natCast (m n : Nat) : compare (m : Int) (n : Int) = compare m n := by
  rw [LinearOrder.compare_eq_compareOfLessAndEq, LinearOrder.compare_eq_compareOfLessAndEq]
  simp [compareOfLessAndEq]

theorem compare_eq (a b : UnpackedFloat) :
    a.compare b = (rank a).bind fun x => (rank b).map (compare x) := by
  obtain ⟨_ | _⟩ | _ | ⟨_ | _⟩ | ⟨_ | _, m, e, hm⟩ := a <;>
    obtain ⟨_ | _⟩ | _ | ⟨_ | _⟩ | ⟨_ | _, n, f, hn⟩ := b <;>
    try rfl
  · simp [rank, UnpackedFloat.compare, Sign.apply, compare_toLex, compare_neg, compare_natCast,
      Ordering.swap_then]
  · simp [rank, UnpackedFloat.compare, Sign.apply, compare_toLex, compare_natCast]

theorem le_iff (a b : UnpackedFloat) :
    a.le b = true ↔ ∃ x ∈ rank a, ∃ y ∈ rank b, x ≤ y := by
  rw [UnpackedFloat.le, compare_eq]
  cases rank a <;> cases rank b <;> simp
  exact Ordering.isLE_iff_ne_gt.trans compare_le_iff_le

theorem lt_iff (a b : UnpackedFloat) :
    a.lt b = true ↔ ∃ x ∈ rank a, ∃ y ∈ rank b, x < y := by
  rw [UnpackedFloat.lt, compare_eq]
  cases rank a <;> cases rank b <;> simp
  exact compare_lt_iff_lt

theorem le_trans {a b c : UnpackedFloat} (hab : a.le b = true) (hbc : b.le c = true) :
    a.le c = true := by
  obtain ⟨x, hx, y, hy, hxy⟩ := (le_iff a b).mp hab
  obtain ⟨y', hy', z, hz, hyz⟩ := (le_iff b c).mp hbc
  obtain rfl := Option.mem_unique hy hy'
  exact (le_iff a c).mpr ⟨x, hx, z, hz, hxy.trans hyz⟩

theorem not_lt_of_le {a b : UnpackedFloat} (hab : a.le b = true) : ¬b.lt a = true := by
  intro hba
  obtain ⟨x, hx, y, hy, hxy⟩ := (le_iff a b).mp hab
  obtain ⟨y', hy', x', hx', hyx⟩ := (lt_iff b a).mp hba
  obtain rfl := Option.mem_unique hx hx'
  obtain rfl := Option.mem_unique hy hy'
  exact hxy.not_gt hyx

variable {m n : Nat} {e f : Int}

theorem le_of_below {hm : 0 < m} {hn : 0 < n} (h : Below m e n f) :
    (UnpackedFloat.finite .positive m e hm).le (.finite .positive n f hn) = true := by
  refine (le_iff _ _).mpr ⟨_, rfl, _, rfl, ?_⟩
  refine Prod.Lex.toLex_le_toLex.mpr (.inr ⟨rfl, Prod.Lex.toLex_le_toLex.mpr ?_⟩)
  change e < f ∨ e = f ∧ (m : Int) ≤ n
  unfold Below at h
  omega

theorem le_of_below_negative {hm : 0 < m} {hn : 0 < n} (h : Below m e n f) :
    (UnpackedFloat.finite .negative n f hn).le (.finite .negative m e hm) = true := by
  refine (le_iff _ _).mpr ⟨_, rfl, _, rfl, ?_⟩
  refine Prod.Lex.toLex_le_toLex.mpr (.inr ⟨rfl, Prod.Lex.toLex_le_toLex.mpr ?_⟩)
  change -f < -e ∨ -f = -e ∧ -(n : Int) ≤ -m
  unfold Below at h
  omega

theorem stored_round_negative_le {k : Int} (hn : n ≠ 0) (hm : 0 < m) :
    (stored (UnpackedFloat.round Format.binary64 .negative n k)).le (.finite .positive m e hm) =
      true := by
  obtain ⟨r, hr, heq⟩ := exists_round .negative hn k
  rw [heq]
  obtain ⟨-, hzero⟩ | ⟨m', e', h', hfinite, -⟩ :=
    settle_cases .negative (hr.le_two_pow hn) (neg_le_exponentOf _ _) (hr.normal hn)
  · rw [hzero, stored_zero]
    rfl
  · rw [hfinite, stored_finite _ h']
    split <;> rfl

theorem normalize_of_pos {a : Int} (ha : 0 < a) (k : Int) :
    UnpackedFloat.normalize Format.binary64 a k .positive =
      UnpackedFloat.round Format.binary64 .positive a.toNat k := by
  rw [UnpackedFloat.normalize, compare_gt_iff_gt.mpr ha]

theorem normalize_zero (k : Int) :
    UnpackedFloat.normalize Format.binary64 0 k .positive = .zero .positive := by
  rw [UnpackedFloat.normalize, compare_eq_iff_eq.mpr rfl]

theorem normalize_of_neg {a : Int} (ha : a < 0) (k : Int) :
    UnpackedFloat.normalize Format.binary64 a k .positive =
      UnpackedFloat.round Format.binary64 .negative (-a).toNat k := by
  rw [UnpackedFloat.normalize, compare_lt_iff_lt.mpr ha]

section

variable {a d : Nat} {k : Int}

theorem stored_normalize_sub_le (h : Canonical m e) (he : e ≤ 971) (hk : k ≤ e)
    (ha : m * 2 ^ (e - k).toNat = a) :
    (stored (UnpackedFloat.normalize Format.binary64 ((a : Int) - d) k .positive)).le
      (.finite .positive m e h.pos) = true := by
  obtain hlt | heq | hgt := lt_trichotomy a d
  · rw [normalize_of_neg (by omega)]
    exact stored_round_negative_le (by omega) h.pos
  · have hzero : (a : Int) - d = 0 := by omega
    rw [hzero, normalize_zero, stored_zero]
    rfl
  · rw [normalize_of_pos (by omega)]
    obtain hzero | ⟨m', e', h', hfinite, hbelow⟩ :=
      round_below .positive (n := ((a : Int) - d).toNat) h hk (by omega) (by omega)
    · rw [hzero]
      rfl
    · have he' : e' ≤ 971 := by
        unfold Below at hbelow
        omega
      rw [hfinite, stored_finite _ h', if_pos he']
      exact le_of_below hbelow

theorem stored_normalize_neg_sub_le (h : Canonical m e) (hk : k ≤ e)
    (ha : m * 2 ^ (e - k).toNat = a) :
    (stored (UnpackedFloat.normalize Format.binary64 (-(a : Int) - d) k .positive)).le
      (.finite .negative m e h.pos) = true := by
  have hpos : 0 < a := ha ▸ Nat.mul_pos h.pos (Nat.two_pow_pos _)
  rw [normalize_of_neg (by omega)]
  obtain ⟨m', e', h', hfinite, hbelow⟩ :=
    below_round .negative (n := (-(-(a : Int) - d)).toNat) h hk (by omega)
  rw [hfinite, stored_finite _ h']
  split
  · exact le_of_below_negative hbelow
  · rfl

end

theorem sub_finite (s : Sign) {hm : 0 < m} {hn : 0 < n} :
    sub Format.binary64 (.finite s m e hm) (.finite .positive n f hn) =
      UnpackedFloat.normalize Format.binary64 (s.apply (m * 2 ^ (e - min e f).toNat : Nat) -
        (n * 2 ^ (f - min e f).toNat : Nat)) (min e f) .positive := by
  rw [← Nat.shiftLeft_eq, ← Nat.shiftLeft_eq]
  rfl

theorem stored_sub_le {u : UnpackedFloat} (hnumber : u ≠ .notANumber)
    (hu : ∀ s m e h, u = .finite s m e h → Canonical m e ∧ e ≤ 971) (h : Canonical n f) :
    (stored (sub Format.binary64 u (.finite .positive n f h.pos))).le u = true := by
  match u with
  | .notANumber => exact absurd rfl hnumber
  | .infinity s =>
    have : sub Format.binary64 (.infinity s) (.finite .positive n f h.pos) = .infinity s := rfl
    rw [this, stored_infinity]
    cases s <;> rfl
  | .zero s =>
    have : sub Format.binary64 (.zero s) (.finite .positive n f h.pos) =
      .finite .negative n f h.pos := rfl
    rw [this, stored_finite _ h]
    split <;> rfl
  | .finite s m e hm =>
    obtain ⟨hc, he⟩ := hu s m e hm rfl
    have hk : min e f ≤ e := min_le_left e f
    have hd : 0 < n * 2 ^ (f - min e f).toNat := Nat.mul_pos h.pos (Nat.two_pow_pos _)
    rw [sub_finite]
    generalize n * 2 ^ (f - min e f).toNat = d at hd
    generalize ha : m * 2 ^ (e - min e f).toNat = a
    cases s with
    | positive => exact stored_normalize_sub_le hc he hk ha
    | negative => exact stored_normalize_neg_sub_le hc hk ha

end Binary64

namespace Double

open Binary64 Float.Model

theorem le_iff (x y : Double) :
    x ≤ y ↔ x.value.toModel.unpack.le y.value.toModel.unpack = true := by
  change decide (x.value.toModel.unpack.le y.value.toModel.unpack = true) = true ↔ _
  exact decide_eq_true_iff

theorem lt_iff (x y : Double) :
    x < y ↔ x.value.toModel.unpack.lt y.value.toModel.unpack = true := by
  change decide (x.value.toModel.unpack.lt y.value.toModel.unpack = true) = true ↔ _
  exact decide_eq_true_iff

theorem canonical_ten : Canonical (10 * 2 ^ 49) (-49) :=
  ⟨by decide, by decide, by decide, .inr (by decide)⟩

theorem unpack_ten : (Scalar.ofInt 10 : Double).value.toModel.unpack =
    .finite .positive (10 * 2 ^ 49) (-49) canonical_ten.pos := rfl

theorem unpack_sub (x y : Float) : (x - y).toModel.unpack =
    stored (UnpackedFloat.sub Format.binary64 x.toModel.unpack y.toModel.unpack) := rfl

theorem unpack_eq_notANumber {x : Float} (h : x.toModel.unpack = .notANumber) :
    x.isNaN = true := by
  rw [Float.isNaN, Float.Model.isNaN, h]
  rfl

theorem sub_ten_le {x y : Double} (h : x ≤ y) : x - Scalar.ofInt 10 ≤ y := by
  change Double.lift (· - ·) x (Scalar.ofInt 10) ≤ y
  unfold Double.lift
  split
  · exact h
  · next hnumber =>
    have hle := stored_sub_le (mt unpack_eq_notANumber hnumber)
      (fun _ _ _ _ hu => canonical_of_unpack _ hu) canonical_ten
    rw [← unpack_ten, ← unpack_sub] at hle
    rw [if_neg (by decide)]
    exact (le_iff _ _).mpr (Binary64.le_trans hle ((le_iff x y).mp h))

end Double

instance : Scalar.Ordered Double where
  le_trans hxy hyz := (Double.le_iff _ _).mpr
    (Binary64.le_trans ((Double.le_iff _ _).mp hxy) ((Double.le_iff _ _).mp hyz))
  not_lt_of_le hxy hyx :=
    Binary64.not_lt_of_le ((Double.le_iff _ _).mp hxy) ((Double.lt_iff _ _).mp hyx)
  sub_ten_le := Double.sub_ten_le

end LoadGenerator
