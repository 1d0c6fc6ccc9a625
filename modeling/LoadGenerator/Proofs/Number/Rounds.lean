import LoadGenerator.Proofs.Number.Decoding
import LoadGenerator.Proofs.Number.Ordered

namespace LoadGenerator

namespace Binary64

open Float.Model Float.Model.UnpackedFloat

def size : Binary64 → Rat
  | .finite _ m e => m * 2 ^ e
  | _ => 0

/-- What the number `± q` is rounded to: the nearest of 53 bits, or infinity past the largest. -/
inductive Rounds (negative : Bool) (q : Rat) : Binary64 → Prop
  | near {r m : Nat} {t e : Int} (h : Nearest q r t) (hq : q < limit)
      (hsize : (m : Rat) * 2 ^ e = r * 2 ^ t) : Rounds negative q (.finite negative m e)
  | past (hq : limit ≤ q) : Rounds negative q (.infinite negative)

theorem Nearest.rounds {q : Rat} {r : Nat} {t : Int} (h : Nearest q r t) (s : Sign) :
    Rounds (isNegativeSign s) q (ofUnpacked (stored (settle s r t))) := by
  by_cases hq : q < limit
  · rw [h.stored_settle_of_lt hq]
    obtain ⟨rfl, hzero⟩ | ⟨m, e, hc, hfinite, hshape⟩ :=
      Binary64.settle_cases s h.le_two_pow h.le h.two_pow_le
    · rw [hzero]
      exact .near h hq (by simp)
    · rw [hfinite]
      refine .near h hq ?_
      obtain ⟨rfl, rfl⟩ | ⟨rfl, rfl, rfl⟩ := hshape
      · rfl
      · push_cast
        rw [two_zpow_succ rfl]
        ring
  · obtain ⟨hle, -⟩ | ⟨-, m, e, hc, hfinite, hlimit⟩ := h.settle_cases s
    · exact absurd (hle.trans_lt least_lt_limit) hq
    · rw [hfinite, stored_finite s hc, if_neg (mt hlimit.mp hq)]
      exact .past (not_lt.mp hq)

/-- What becomes of a number that is multiplied by `k`. -/
def Scaled (k : Rat) : Binary64 → Binary64 → Prop
  | .finite negative m e, b => Rounds negative (m * 2 ^ e * k) b
  | a, b => b = a

def BelowZero : Binary64 → Prop
  | .finite negative m _ => negative = true ∧ m ≠ 0
  | .infinite negative => negative = true
  | .notNumber => False

theorem Rounds.belowZero_iff {negative : Bool} {q : Rat} {b : Binary64}
    (h : Rounds negative q b) : b.BelowZero ↔ negative = true ∧ least < q := by
  cases h with
  | @near r m t e h hq hsize =>
    have hzero : m = 0 ↔ r = 0 := by
      have hm := (two_zpow_pos e).ne'
      have hr := (two_zpow_pos t).ne'
      rw [← Nat.cast_eq_zero (R := Rat), ← mul_eq_zero_iff_right hm, hsize,
        mul_eq_zero_iff_right hr, Nat.cast_eq_zero]
    rw [BelowZero, ← not_le, ← h.eq_zero_iff, ← hzero]
  | past hq => exact (and_iff_left (least_lt_limit.trans_le hq)).symm

theorem Rounds.size_le {negative negative' sign : Bool} {p q : Rat} {a : Binary64} {m : Nat}
    {e : Int} (h : Rounds negative p a) (h' : Rounds negative' q (.finite sign m e))
    (hpq : p ≤ q) : a.size ≤ m * 2 ^ e := by
  cases h' with
  | near hnear' hq hsize' =>
    cases h with
    | past hlimit => exact absurd (hpq.trans_lt hq) (not_lt.mpr hlimit)
    | @near r n t f hnear _ hsize =>
      change (n : Rat) * 2 ^ f ≤ m * 2 ^ e
      rw [hsize, hsize']
      exact hnear.mono hnear' hpq

theorem Scaled.not_belowZero {k : Rat} {a b : Binary64} (h : Scaled k a b)
    (ha : ¬a.BelowZero) : ¬b.BelowZero := by
  cases a with
  | finite negative m e =>
    rw [Rounds.belowZero_iff h]
    rintro ⟨hnegative, hq⟩
    obtain rfl : m = 0 := not_not.mp fun hm => ha ⟨hnegative, hm⟩
    rw [Nat.cast_zero, zero_mul, zero_mul] at hq
    exact hq.not_gt least_pos
  | infinite | notNumber =>
    obtain rfl := h
    exact ha

/-- A double above zero that is not near it. -/
def Normal (u : UnpackedFloat) : Prop :=
  ∃ n f, ∃ h : Canonical n f, 2 ^ 52 ≤ n ∧ u = .finite .positive n f h.pos

theorem rounds_mul_finite (s : Sign) {m n : Nat} (hm : 0 < m) (hn : 2 ^ 52 ≤ n) (e f : Int) :
    Rounds (isNegativeSign s) (m * 2 ^ e * (n * 2 ^ f))
      (ofUnpacked (stored (roundWithAccuracy Format.binary64 s (m * n) (e + f) .exact))) := by
  have hne : m * n ≠ 0 := Nat.mul_ne_zero hm.ne' (by omega)
  have hle : e + f ≤ exponentOf (m * n) (e + f) := by
    have hlog : 52 ≤ (m * n).log2 :=
      (Nat.le_log2 hne).mpr (hn.trans (Nat.le_mul_of_pos_left n hm))
    unfold exponentOf
    omega
  obtain ⟨r, t, h, heq⟩ := nearest_roundWithAccuracy s hne hle
  have hq : ((m * n : Nat) : Rat) * 2 ^ (e + f) = m * 2 ^ e * (n * 2 ^ f) := by
    rw [zpow_add₀ two_ne_zero]
    push_cast
    ring
  rw [heq, ← hq]
  exact h.rounds s

end Binary64

namespace Double

open Binary64 Float.Model Float.Model.UnpackedFloat

theorem exact_eq (x : Double) : x.exact = ofUnpacked x.value.toModel.unpack := ofFloat_eq x.value

theorem lt_zero_iff (x : Double) : x < Scalar.zero ↔ x.exact.BelowZero := by
  have hzero : (Scalar.zero : Double).value.toModel.unpack = .zero .positive := rfl
  rw [exact_eq, lt_iff, hzero]
  match x.value.toModel.unpack with
  | .notANumber => exact iff_of_false nofun nofun
  | .infinity .positive => exact iff_of_false nofun nofun
  | .infinity .negative => exact iff_of_true rfl rfl
  | .zero s => exact iff_of_false nofun fun h => h.2 rfl
  | .finite .positive m e hm => exact iff_of_false nofun fun h => nomatch h.1
  | .finite .negative m e hm => exact iff_of_true rfl ⟨rfl, hm.ne'⟩

theorem isNumber_iff (x : Double) : Scalar.isNumber x = true ↔ x.exact ≠ .notNumber := by
  rw [Scalar.isNumber, decide_eq_true_iff, exact_eq, le_iff, Binary64.le_iff]
  match x.value.toModel.unpack with
  | .notANumber => exact iff_of_false (by rintro ⟨_, ⟨⟩, _⟩) (not_not.mpr rfl)
  | .infinity _ | .zero _ | .finite _ _ _ _ => exact iff_of_true ⟨_, rfl, _, rfl, le_rfl⟩ nofun

theorem isNonnegative_iff (x : Double) :
    Scalar.isNonnegative x = true ↔ x.exact ≠ .notNumber ∧ ¬x.exact.BelowZero := by
  rw [Scalar.isNonnegative, Bool.and_eq_true, isNumber_iff, Bool.not_eq_true',
    decide_eq_false_iff_not, lt_zero_iff]

theorem value_lift (f : Float → Float → Float) {x y : Double}
    (hx : x.value.toModel.unpack ≠ .notANumber) (hy : y.value.toModel.unpack ≠ .notANumber) :
    (lift f x y).value = f x.value y.value := by
  have hnumber {z : Float} (hz : z.toModel.unpack ≠ .notANumber) : ¬z.isNaN = true := by
    have hNaN : z.isNaN = z.toModel.unpack.isNaN := rfl
    rw [hNaN]
    cases hu : z.toModel.unpack with
    | notANumber => exact absurd hu hz
    | infinity | zero | finite => exact Bool.false_ne_true
  rw [lift, if_neg (hnumber hx), if_neg (hnumber hy)]
  rfl

theorem unpack_mul {x y : Double} (hx : x.value.toModel.unpack ≠ .notANumber)
    (hy : y.value.toModel.unpack ≠ .notANumber) : (x * y).value.toModel.unpack =
      stored (UnpackedFloat.mul Format.binary64 x.value.toModel.unpack y.value.toModel.unpack) := by
  have hvalue : (x * y).value = x.value * y.value := value_lift _ hx hy
  rw [hvalue]
  rfl

theorem scaled_mul (x : Double) {y : Double} (hy : Normal y.value.toModel.unpack) :
    Scaled y.exact.size x.exact (x * y).exact := by
  obtain ⟨n, f, hc, hn, hfinite⟩ := hy
  have hmul (hx : x.value.toModel.unpack ≠ .notANumber) :=
    unpack_mul hx (hfinite ▸ nofun : y.value.toModel.unpack ≠ .notANumber)
  have hsign (s : Sign) : s * .positive = s := by cases s <;> rfl
  rw [exact_eq, exact_eq, exact_eq]
  rw [hfinite] at hmul ⊢
  cases hu : x.value.toModel.unpack with
  | notANumber =>
    have hx : x * y = x := if_pos (unpack_eq_notANumber hu)
    rw [hx, hu]
    rfl
  | infinity s =>
    rw [hmul (hu ▸ nofun), hu, UnpackedFloat.mul, hsign, stored_infinity]
    rfl
  | zero s =>
    rw [hmul (hu ▸ nofun), hu, UnpackedFloat.mul, hsign, stored_zero]
    change Rounds (isNegativeSign s) _ (.finite (isNegativeSign s) 0 (-1074))
    rw [Nat.cast_zero, zero_mul, zero_mul]
    exact .near nearest_zero (least_pos.trans least_lt_limit) (by simp)
  | finite s m e hm =>
    rw [hmul (hu ▸ nofun), hu, UnpackedFloat.mul, hsign]
    exact rounds_mul_finite s hm hn e f

theorem not_negative_mul {x y : Double} (hx : ¬x < Scalar.zero)
    (hy : Normal y.value.toModel.unpack) : ¬x * y < Scalar.zero := by
  rw [lt_zero_iff] at hx ⊢
  exact (scaled_mul x hy).not_belowZero hx

end Double

namespace Literal

open Binary64

/-- A number that is not past the largest double, and not so near zero that it becomes zero. -/
def InRange : Literal → Prop
  | .number d => d.coefficient = 0 ∨ least < d.size ∧ d.size < limit
  | _ => True

def BelowZero : Literal → Prop
  | .number d => d.negative = true ∧ d.coefficient ≠ 0
  | .infinity negative => negative = true
  | .notNumber _ => False

/-- What stands in a double that is read from a literal. -/
def Denotes : Literal → Binary64 → Prop
  | .number d, b => Rounds d.negative d.size b
  | .infinity negative, b => b = .infinite negative
  | .notNumber _, b => b = .notNumber

end Literal

namespace Binary64

open Float.Model Float.Model.UnpackedFloat

theorem ne_zero_iff {q : Rat} {r : Nat} {t : Int} (h : Nearest q r t) {s : Sign} {x : Float}
    (hx : x.toModel.unpack = settle s r t) : (x != 0) = true ↔ least < q := by
  have hne : (x != 0) = !(x.toModel.unpack.beq (.zero .positive)) := rfl
  rw [hne, hx]
  obtain ⟨hq, hzero⟩ | ⟨hq, m, e, hc, hfinite, -⟩ := h.settle_cases s
  · rw [hzero]
    exact iff_of_false Bool.false_ne_true (not_lt.mpr hq)
  · rw [hfinite]
    cases s <;> exact iff_of_true rfl hq

end Binary64

namespace Double

open Binary64

theorem ofDecimal?_cases (d : Decimal) :
    (limit ≤ d.size ∧ ofDecimal? d = none) ∨
      (d.size < limit ∧ ∃ x, ofDecimal? d = some x ∧ Rounds d.negative d.size x.exact ∧
        ((x.value != 0) = true ↔ least < d.size)) := by
  obtain ⟨r, t, h, ⟨hq, hnone⟩ | ⟨hq, x, hx, hunpack⟩⟩ := d.toFloat?_cases
  · exact .inl ⟨hq, by rw [ofDecimal?, hnone, Option.map_none]⟩
  · refine .inr ⟨hq, ofFloat x, by rw [ofDecimal?, hx, Option.map_some], ?_,
      ne_zero_iff h hunpack⟩
    have hround := h.rounds (signOf d.negative)
    rw [h.stored_settle_of_lt hq, ← hunpack, isNegativeSign_signOf] at hround
    rw [exact_eq]
    exact hround

theorem ofLiteral?_number (d : Decimal) :
    (¬(Literal.number d).InRange ∧ ofLiteral? (.number d) = none) ∨
      ((Literal.number d).InRange ∧
        ∃ x, ofLiteral? (.number d) = some x ∧ Rounds d.negative d.size x.exact) := by
  obtain ⟨hq, hnone⟩ | ⟨hq, x, hx, hround, hne⟩ := ofDecimal?_cases d
  · refine .inl ⟨?_, ?_⟩
    · have hne : d.coefficient ≠ 0 :=
        d.size_eq_zero.not.mp ((least_pos.trans least_lt_limit).trans_le hq).ne'
      exact not_or.mpr ⟨hne, fun h => hq.not_gt h.2⟩
    · rw [ofLiteral?, hnone]
      rfl
  · have hrange : (Literal.number d).InRange ↔
        (decide (d.coefficient = 0) || x.value != 0) = true := by
      rw [Bool.or_eq_true, decide_eq_true_iff, hne]
      exact or_congr_right (and_iff_left hq)
    rw [ofLiteral?, hx, Option.filter_some]
    by_cases hin : (Literal.number d).InRange
    · rw [if_pos (hrange.mp hin)]
      exact .inr ⟨hin, x, rfl, hround⟩
    · rw [if_neg (mt hrange.mpr hin)]
      exact .inl ⟨hin, rfl⟩

theorem isNumber_of_ofDecimal? {d : Decimal} {x : Double} (h : ofDecimal? d = some x) :
    Scalar.isNumber x = true := by
  rw [isNumber_iff]
  obtain ⟨-, hnone⟩ | ⟨-, y, hy, hround, -⟩ := ofDecimal?_cases d
  · rw [hnone] at h
    cases h
  · rw [hy] at h
    obtain rfl := Option.some.inj h
    generalize y.exact = b at hround ⊢
    cases hround <;> nofun

theorem ofLiteral?_cases (l : Literal) :
    (¬l.InRange ∧ ofLiteral? l = none) ∨
      (l.InRange ∧ ∃ x, ofLiteral? l = some x ∧ l.Denotes x.exact) := by
  cases l with
  | number d => exact ofLiteral?_number d
  | infinity negative =>
    refine .inr ⟨trivial, _, rfl, ?_⟩
    cases negative <;> rfl
  | notNumber negative =>
    refine .inr ⟨trivial, _, rfl, ?_⟩
    cases negative <;> rfl

theorem size_lt_limit {d : Decimal} (h : (Literal.number d).InRange) : d.size < limit := by
  obtain hc | ⟨-, hlt⟩ := h
  · rw [d.size_eq_zero.mpr hc]
    exact least_pos.trans least_lt_limit
  · exact hlt

theorem belowZero_iff {l : Literal} {b : Binary64} (hin : l.InRange) (h : l.Denotes b) :
    b.BelowZero ↔ l.BelowZero := by
  cases l with
  | number d =>
    rw [h.belowZero_iff]
    refine and_congr_right fun _ => ⟨fun hq hc => ?_, fun hc => (hin.resolve_left hc).1⟩
    rw [d.size_eq_zero.mpr hc] at hq
    exact hq.not_gt least_pos
  | infinity negative | notNumber negative =>
    obtain rfl := h
    rfl

end Double

end LoadGenerator
