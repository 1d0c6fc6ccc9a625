import LoadGenerator.Number.Binary64
import LoadGenerator.Proofs.Number.Rounding

namespace LoadGenerator

theorem Rounding.lt_toEven_iff {n d c : Nat} (hd : 0 < d) :
    c < toEven n d ↔ (2 * c + 1) * d < 2 * n ∨ (2 * c + 1) * d = 2 * n ∧ c % 2 = 1 := by
  have hn : d * (n / d) + n % d = n := Nat.div_add_mod n d
  have hr : n % d < d := Nat.mod_lt n hd
  unfold toEven
  dsimp only
  generalize n / d = q at hn ⊢
  generalize n % d = r at hn hr ⊢
  subst hn
  have hexpand : (2 * c + 1) * d = 2 * (c * d) + d := by ring
  have hcomm : d * q = q * d := Nat.mul_comm d q
  rw [hexpand, hcomm]
  obtain hlt | rfl | hlt := lt_trichotomy c q
  · have hle : (c + 1) * d ≤ q * d := Nat.mul_le_mul_right d hlt
    rw [Nat.add_mul, Nat.one_mul] at hle
    split_ifs <;> omega
  · split_ifs <;> omega
  · have hle : (q + 1) * d ≤ c * d := Nat.mul_le_mul_right d hlt
    rw [Nat.add_mul, Nat.one_mul] at hle
    split_ifs <;> omega

namespace Binary64

open Float.Model Float.Model.UnpackedFloat ExtendedMantissa

/-- Half a unit past the largest double. -/
def limit : Rat := 2 ^ (1024 : Int) - 2 ^ (970 : Int)

/-- Half the least positive double. -/
def least : Rat := 2 ^ (-1075 : Int)

/-- Among the numbers of 53 bits, `r * 2 ^ t` is the nearest to `q`, a tie going to the even `r`. -/
structure Nearest (q : Rat) (r : Nat) (t : Int) : Prop where
  le : -1074 ≤ t
  normal : t = -1074 ∨ 2 ^ 52 * 2 ^ t ≤ q
  lt : q < 2 ^ 53 * 2 ^ t
  lt_iff : ∀ c : Nat, c < r ↔
    (2 * c + 1) * 2 ^ t < 2 * q ∨ (2 * c + 1) * 2 ^ t = 2 * q ∧ c % 2 = 1

theorem two_zpow_pos (t : Int) : (0 : Rat) < 2 ^ t := zpow_pos two_pos t

theorem two_zpow_le {t u : Int} (h : t ≤ u) : (2 : Rat) ^ t ≤ 2 ^ u :=
  zpow_le_zpow_right₀ one_le_two h

theorem two_zpow_succ {t u : Int} (h : u = t + 1) : (2 : Rat) ^ u = 2 * 2 ^ t := by
  rw [h, zpow_add_one₀ two_ne_zero, mul_comm]

theorem limit_eq : limit = (2 ^ 54 - 1) * 2 ^ (970 : Int) := by
  have h : (2 : Rat) ^ (1024 : Int) = 2 ^ 54 * 2 ^ (970 : Int) := by
    rw [← zpow_natCast, ← zpow_add₀ two_ne_zero]
    rfl
  rw [limit, h, sub_mul, one_mul]

theorem least_pos : 0 < least := two_zpow_pos _

theorem least_lt_limit : least < limit := by
  have h : least ≤ 2 ^ (970 : Int) := two_zpow_le (by decide)
  have hpos := two_zpow_pos 970
  rw [limit_eq]
  generalize (2 : Rat) ^ (970 : Int) = x at h hpos ⊢
  linarith

namespace Nearest

variable {q : Rat} {r : Nat} {t : Int}

theorem of_quotient {n d : Nat} (hd : 0 < d) (hle : -1074 ≤ t)
    (hnormal : t = -1074 ∨ 2 ^ 52 * 2 ^ t ≤ q) (hlt : q < 2 ^ 53 * 2 ^ t)
    (hq : (n : Rat) * 2 ^ t = q * d) : Nearest q (Rounding.toEven n d) t := by
  refine ⟨hle, hnormal, hlt, fun c => ?_⟩
  have hd' : (0 : Rat) < d := Nat.cast_pos.mpr hd
  have ht := two_zpow_pos t
  have hscale : ∀ a : Rat, a * 2 ^ t * d < 2 * q * d ↔ a * d < 2 * n := by
    intro a
    rw [mul_assoc 2 q, ← hq, ← mul_assoc, mul_right_comm a, mul_lt_mul_iff_left₀ ht]
  have hscale' : ∀ a : Rat, a * 2 ^ t * d = 2 * q * d ↔ a * d = 2 * n := by
    intro a
    rw [mul_assoc 2 q, ← hq, ← mul_assoc, mul_right_comm a, mul_left_inj' ht.ne']
  rw [Rounding.lt_toEven_iff hd, ← mul_lt_mul_iff_left₀ hd', ← mul_left_inj' hd'.ne', hscale,
    hscale']
  norm_cast

theorem le_two_pow (h : Nearest q r t) : r ≤ 2 ^ 53 := by
  by_contra hr
  have ht := two_zpow_pos t
  have hlt := h.lt
  obtain hc | ⟨hc, -⟩ := (h.lt_iff (2 ^ 53)).mp (by omega)
  all_goals
    push_cast at hc
    linarith

theorem two_pow_le (h : Nearest q r t) : t = -1074 ∨ 2 ^ 52 ≤ r := by
  refine h.normal.imp_right fun hq => ?_
  have ht := two_zpow_pos t
  have hr : 2 ^ 52 - 1 < r := by
    refine (h.lt_iff (2 ^ 52 - 1)).mpr (.inl ?_)
    push_cast
    linarith
  omega

theorem least_lt_of_normal (h : Nearest q r t) (ht : 2 ^ 52 * 2 ^ t ≤ q) : least < q := by
  have hleast : (2 : Rat) ^ (-1074 : Int) = 2 * least := two_zpow_succ (by decide)
  have hle := two_zpow_le h.le
  have hpos := least_pos
  generalize (2 : Rat) ^ t = x at ht hle
  linarith

theorem eq_zero_iff (h : Nearest q r t) : r = 0 ↔ q ≤ least := by
  have hleast : (2 : Rat) ^ (-1074 : Int) = 2 * least := two_zpow_succ (by decide)
  by_cases ht : t = -1074
  · subst ht
    have hzero := h.lt_iff 0
    norm_num [hleast] at hzero
    rw [← not_lt (a := least), ← hzero, Nat.pos_iff_ne_zero, not_not]
  · have hr := h.two_pow_le.resolve_left ht
    have hq := h.least_lt_of_normal (h.normal.resolve_left ht)
    exact iff_of_false (by omega) (not_le.mpr hq)

theorem limit_le_iff (h : Nearest q r t) :
    limit ≤ q ↔ 971 < t ∨ t = 971 ∧ r = 2 ^ 53 := by
  have hpos := two_zpow_pos 970
  have hlt := h.lt
  rw [limit_eq]
  obtain ht | rfl | ht := lt_trichotomy t 971
  · have hle := two_zpow_le (show t ≤ 970 by omega)
    refine iff_of_false (not_le.mpr ?_) (by omega)
    generalize (2 : Rat) ^ t = x at hlt hle
    generalize (2 : Rat) ^ (970 : Int) = y at hle hpos ⊢
    linarith
  · have hunit : (2 : Rat) ^ (971 : Int) = 2 * 2 ^ (970 : Int) := two_zpow_succ (by decide)
    have hr : r = 2 ^ 53 ↔ 2 ^ 53 - 1 < r := by
      have := h.le_two_pow
      omega
    rw [hr, h.lt_iff, hunit]
    generalize (2 : Rat) ^ (970 : Int) = y at hpos ⊢
    push_cast
    simp only [and_true, false_or, true_and]
    rw [← le_iff_lt_or_eq]
    constructor <;> intro hle <;> linarith
  · have hunit : (2 : Rat) ^ (972 : Int) = 4 * 2 ^ (970 : Int) := by
      rw [two_zpow_succ (t := 971) (by decide), two_zpow_succ (t := 970) (by decide)]
      ring
    have hle := two_zpow_le (show 972 ≤ t by omega)
    have hq := h.normal.resolve_left (by omega)
    refine iff_of_true ?_ (.inl ht)
    rw [hunit] at hle
    generalize (2 : Rat) ^ t = x at hq hle
    generalize (2 : Rat) ^ (970 : Int) = y at hle hpos ⊢
    linarith

theorem mono {p : Rat} {r' : Nat} {t' : Int} (h : Nearest p r t) (h' : Nearest q r' t')
    (hpq : p ≤ q) : (r : Rat) * 2 ^ t ≤ r' * 2 ^ t' := by
  obtain hlt | rfl | hlt := lt_trichotomy t t'
  · have ht := two_zpow_pos t
    have hle := two_zpow_le (show t + 1 ≤ t' by omega)
    rw [two_zpow_succ rfl] at hle
    have hr : (r : Rat) ≤ 2 ^ 53 := by exact_mod_cast h.le_two_pow
    have hr' : (2 : Rat) ^ 52 ≤ r' := by
      have := h.le
      exact_mod_cast h'.two_pow_le.resolve_left (by omega)
    calc (r : Rat) * 2 ^ t
      _ ≤ 2 ^ 53 * 2 ^ t := mul_le_mul_of_nonneg_right hr ht.le
      _ = 2 ^ 52 * (2 * 2 ^ t) := by ring
      _ ≤ r' * 2 ^ t' := mul_le_mul hr' hle (by positivity) (Nat.cast_nonneg r')
  · refine mul_le_mul_of_nonneg_right (Nat.cast_le.mpr ?_) (two_zpow_pos t).le
    -- a number below which only the smaller fraction falls would be a tie of unequal fractions
    by_contra hr
    have hnot : ¬r' < r' := lt_irrefl r'
    rw [h'.lt_iff, not_or] at hnot
    obtain hc | ⟨hc, hodd⟩ := (h.lt_iff r').mp (not_le.mp hr)
    · exact hnot.1 (by linarith)
    · obtain heq | hlt := hpq.eq_or_lt
      · exact hnot.2 ⟨heq ▸ hc, hodd⟩
      · exact hnot.1 (by linarith)
  · have hnormal := h.normal.resolve_left (by have := h'.le; omega)
    have hle := two_zpow_le (show t' + 1 ≤ t by omega)
    rw [two_zpow_succ rfl] at hle
    have := h'.lt
    linarith

/-- The double itself: zero, or one that is stored unless it is past the largest one. -/
theorem settle_cases (h : Nearest q r t) (s : Sign) :
    (q ≤ least ∧ settle s r t = .zero s) ∨
      least < q ∧ ∃ m e, ∃ hc : Canonical m e,
        settle s r t = .finite s m e hc.pos ∧ (e ≤ 971 ↔ q < limit) := by
  have hlimit := h.limit_le_iff
  obtain ⟨hr, hzero⟩ | ⟨m, e, hc, hfinite, hshape⟩ :=
    Binary64.settle_cases s h.le_two_pow h.le h.two_pow_le
  · exact .inl ⟨h.eq_zero_iff.mp hr, hzero⟩
  · have hr : r ≠ 0 := by
      have := hc.pos
      omega
    refine .inr ⟨not_le.mp (mt h.eq_zero_iff.mpr hr), m, e, hc, hfinite, ?_⟩
    rw [← not_le (a := limit), hlimit]
    have := hc.lt
    omega

end Nearest

namespace ExtendedMantissa

theorem roundedMantissa_eq (m : Nat) (half more : Bool) :
    ExtendedMantissa.roundedMantissa ⟨m, half, more⟩ =
      if half then (if more then m + 1 else m + m % 2) else m := by
  cases half <;> cases more <;> rfl

theorem mod_two_pow_succ (m n : Nat) :
    m % 2 ^ (n + 1) = m % 2 ^ n + 2 ^ n * (m / 2 ^ n % 2) := by
  rw [pow_succ, Nat.mod_mul]

theorem shift_succ (m n : Nat) :
    (⟨m, false, false⟩ : ExtendedMantissa) >>> (n + 1) =
      ⟨m / 2 ^ (n + 1), m / 2 ^ n % 2 != 0, m % 2 ^ n != 0⟩ := by
  induction n with
  | zero => simp [HShiftRight.hShiftRight, Nat.repeat, ExtendedMantissa.shiftRightOne, Nat.mod_one]
  | succ n ih =>
    have hstep : (⟨m, false, false⟩ : ExtendedMantissa) >>> (n + 1 + 1) =
      ((⟨m, false, false⟩ : ExtendedMantissa) >>> (n + 1)).shiftRightOne := rfl
    have hmore : (m / 2 ^ n % 2 != 0 || m % 2 ^ n != 0) = (m % 2 ^ (n + 1) != 0) := by
      rw [mod_two_pow_succ, Bool.eq_iff_iff]
      have := Nat.two_pow_pos n
      simp only [Bool.or_eq_true, bne_iff_ne, ne_eq, Nat.add_eq_zero_iff, Nat.mul_eq_zero]
      omega
    rw [hstep, ih, ExtendedMantissa.shiftRightOne, Nat.div_div_eq_div_mul, ← pow_succ, hmore]

theorem rounded_eq (m n : Nat) : rounded m n = Rounding.toEven m (2 ^ n) := by
  cases n with
  | zero =>
    have hexact : rounded m 0 = m := rfl
    simp [hexact, Rounding.toEven, Nat.mod_one]
  | succ n =>
    have hlow : m % 2 ^ n < 2 ^ n := Nat.mod_lt m (Nat.two_pow_pos n)
    have hdouble : 2 ^ (n + 1) = 2 * 2 ^ n := by rw [pow_succ, mul_comm]
    have hbit := Nat.mod_two_eq_zero_or_one (m / 2 ^ n)
    rw [rounded, shift_succ, roundedMantissa_eq, Rounding.toEven, mod_two_pow_succ, hdouble]
    simp only [bne_iff_ne]
    generalize m / (2 * 2 ^ n) = q
    obtain hbit | hbit := hbit <;> rw [hbit] <;> split_ifs <;> omega

end ExtendedMantissa

theorem two_zpow_log2_le {m : Nat} (hm : m ≠ 0) : (2 : Rat) ^ (m.log2 : Int) ≤ m := by
  rw [zpow_natCast]
  exact_mod_cast Nat.log2_self_le hm

theorem lt_two_zpow_log2 (m : Nat) : (m : Rat) < 2 ^ ((m.log2 : Int) + 1) := by
  have h : (m.log2 : Int) + 1 = (m.log2 + 1 : Nat) := by push_cast; rfl
  rw [h, zpow_natCast]
  exact_mod_cast Nat.lt_log2_self

theorem two_pow_mul_two_zpow (n : Nat) (t : Int) : (2 : Rat) ^ n * 2 ^ t = 2 ^ (n + t) := by
  rw [zpow_add₀ two_ne_zero, zpow_natCast]

theorem nearest_roundWithAccuracy (s : Sign) {m : Nat} {k : Int} (hm : m ≠ 0)
    (h : k ≤ exponentOf m k) : ∃ r t, Nearest (m * 2 ^ k) r t ∧
      roundWithAccuracy Format.binary64 s m k .exact = settle s r t := by
  have ht : exponentOf m k = max (m.log2 + 1 + k - 53) (-1074) := rfl
  refine ⟨_, _, ?_, roundWithAccuracy_eq s hm h⟩
  rw [rounded_eq]
  refine .of_quotient (Nat.two_pow_pos _) (neg_le_exponentOf m k) ?_ ?_ ?_
  · refine or_iff_not_imp_left.mpr fun hne => ?_
    calc (2 : Rat) ^ 52 * 2 ^ exponentOf m k
      _ = 2 ^ (m.log2 + k) := by
        rw [two_pow_mul_two_zpow]
        congr 1
        omega
      _ = 2 ^ (m.log2 : Int) * 2 ^ k := zpow_add₀ two_ne_zero _ _
      _ ≤ m * 2 ^ k := mul_le_mul_of_nonneg_right (two_zpow_log2_le hm) (two_zpow_pos k).le
  · calc (m : Rat) * 2 ^ k
      _ < 2 ^ ((m.log2 : Int) + 1) * 2 ^ k :=
        mul_lt_mul_of_pos_right (lt_two_zpow_log2 m) (two_zpow_pos k)
      _ = 2 ^ (m.log2 + 1 + k) := (zpow_add₀ two_ne_zero _ _).symm
      _ ≤ 2 ^ (53 + exponentOf m k) := two_zpow_le (by omega)
      _ = 2 ^ 53 * 2 ^ exponentOf m k := (two_pow_mul_two_zpow 53 _).symm
  · have hk : exponentOf m k = k + (exponentOf m k - k).toNat := by omega
    push_cast
    rw [mul_assoc, ← zpow_natCast, ← zpow_add₀ two_ne_zero, ← hk]

theorem quotient_pos (m : Nat) (e : Int) : 0 < (quotient m e).2 := by
  unfold quotient
  split
  · exact Nat.one_pos
  · rw [Nat.shiftLeft_eq, one_mul]
    exact Nat.two_pow_pos _

theorem quotient_mul (m : Nat) (e : Int) :
    ((quotient m (-e)).1 : Rat) * 2 ^ e = m * (quotient m (-e)).2 := by
  unfold quotient
  split
  · next h =>
    obtain ⟨n, rfl⟩ : ∃ n : Nat, e = -n := ⟨e.natAbs, by omega⟩
    have hpos := two_zpow_pos n
    rw [zpow_natCast] at hpos
    simp [Nat.shiftLeft_eq, hpos.ne']
  · next h =>
    obtain ⟨n, rfl⟩ : ∃ n : Nat, e = n := ⟨e.natAbs, by omega⟩
    simp [Nat.shiftLeft_eq]

def bits? (r : Nat) (t : Int) : Option Nat :=
  let (m, e) := if r = 2 * leastNormal then (leastNormal, t + 1) else (r, t)
  if m < leastNormal then some m
  else if 971 < e then none
  else some ((e + 1075).toNat * leastNormal + (m - leastNormal))

theorem div_mem_two_zpow {num den : Nat} (hn : num ≠ 0) (hd : den ≠ 0) :
    (2 : Rat) ^ ((num.log2 : Int) - den.log2 - 1) < num / den ∧
      (num / den : Rat) < 2 ^ ((num.log2 : Int) - den.log2 + 1) := by
  have hden : (0 : Rat) < den := Nat.cast_pos.mpr (Nat.pos_of_ne_zero hd)
  constructor
  · rw [lt_div_iff₀ hden]
    calc (2 : Rat) ^ ((num.log2 : Int) - den.log2 - 1) * den
      _ < 2 ^ ((num.log2 : Int) - den.log2 - 1) * 2 ^ ((den.log2 : Int) + 1) :=
        mul_lt_mul_of_pos_left (lt_two_zpow_log2 den) (two_zpow_pos _)
      _ = 2 ^ (num.log2 : Int) := by
        rw [← zpow_add₀ two_ne_zero]
        congr 1
        omega
      _ ≤ num := two_zpow_log2_le hn
  · rw [div_lt_iff₀ hden]
    calc (num : Rat)
      _ < 2 ^ ((num.log2 : Int) + 1) := lt_two_zpow_log2 num
      _ = 2 ^ ((num.log2 : Int) - den.log2 + 1) * 2 ^ (den.log2 : Int) := by
        rw [← zpow_add₀ two_ne_zero]
        congr 1
        omega
      _ ≤ 2 ^ ((num.log2 : Int) - den.log2 + 1) * den :=
        mul_le_mul_of_nonneg_left (two_zpow_log2_le hd) (two_zpow_pos _).le

theorem leastNormal_eq : leastNormal = 2 ^ 52 := by decide

theorem leastNormal_mul_le_iff {num den : Nat} (hd : den ≠ 0) (e : Int) :
    leastNormal * ((quotient num (-e)).2 * den) ≤ (quotient num (-e)).1 ↔
      (2 : Rat) ^ 52 * 2 ^ e ≤ num / den := by
  have hden : (0 : Rat) < den := Nat.cast_pos.mpr (Nat.pos_of_ne_zero hd)
  have hpos : (0 : Rat) < (quotient num (-e)).2 := Nat.cast_pos.mpr (quotient_pos _ _)
  have hcomm (b x : Rat) : 2 ^ 52 * (b * den) * x = 2 ^ 52 * x * den * b := by ring
  rw [leastNormal_eq, ← Nat.cast_le (α := Rat), ← mul_le_mul_iff_left₀ (two_zpow_pos e),
    quotient_mul, Nat.cast_mul, Nat.cast_mul, Nat.cast_pow, Nat.cast_ofNat, hcomm,
    mul_le_mul_iff_left₀ hpos, le_div_iff₀ hden]

theorem exists_nearestBits {num den : Nat} (hn : num ≠ 0) (hd : den ≠ 0) :
    ∃ r t, Nearest (num / den) r t ∧ nearestBits? num den = bits? r t := by
  let guess : Int := (num.log2 : Int) - den.log2 - 52
  let fits := leastNormal * ((quotient num (-guess)).2 * den) ≤ (quotient num (-guess)).1
  let e := if fits then guess else guess - 1
  let t := max e (-1074)
  obtain ⟨hlow, hhigh⟩ := div_mem_two_zpow hn hd
  have hfits : fits ↔ (2 : Rat) ^ 52 * 2 ^ guess ≤ num / den := leastNormal_mul_le_iff hd guess
  have hnormal : (2 : Rat) ^ 52 * 2 ^ e ≤ num / den := by
    by_cases h : fits
    · rw [show e = guess from if_pos h]
      exact hfits.mp h
    · rw [show e = guess - 1 from if_neg h, two_pow_mul_two_zpow]
      refine le_trans (two_zpow_le ?_) hlow.le
      omega
  have hlt : (num / den : Rat) < 2 ^ 53 * 2 ^ e := by
    by_cases h : fits
    · rw [show e = guess from if_pos h, two_pow_mul_two_zpow]
      refine lt_of_lt_of_le hhigh (two_zpow_le ?_)
      omega
    · have hguess : guess = e + 1 := by
        rw [show e = guess - 1 from if_neg h]
        omega
      have := not_le.mp (mt hfits.mpr h)
      rw [two_zpow_succ hguess] at this
      linarith
  refine ⟨Rounding.toEven (quotient num (-t)).1 ((quotient num (-t)).2 * den), t, ?_, rfl⟩
  refine .of_quotient ?_ (le_max_right _ _) ?_ ?_ ?_
  · exact Nat.mul_pos (quotient_pos _ _) (Nat.pos_of_ne_zero hd)
  · obtain ht | ht := max_choice e (-1074)
    · exact .inr (by rwa [show t = e from ht])
    · exact .inl ht
  · have := two_zpow_le (le_max_left e (-1074))
    linarith
  · have hden : (den : Rat) ≠ 0 := Nat.cast_ne_zero.mpr hd
    rw [quotient_mul]
    push_cast
    field_simp

end Binary64

end LoadGenerator
