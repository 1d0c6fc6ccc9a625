import LoadGenerator.Number.Binary64
import Mathlib

namespace LoadGenerator.Binary64

open Float.Model Float.Model.UnpackedFloat

/-- Mantissa and exponent of a double that is neither zero nor infinite. -/
structure Canonical (m : Nat) (e : Int) : Prop where
  pos : 0 < m
  lt : m < 2 ^ 53
  le : -1074 ≤ e
  normal : e = -1074 ∨ 2 ^ 52 ≤ m

def exponentOf (m : Nat) (k : Int) : Int := max (m.log2 + 1 + k - 53) (-1074)

theorem neg_le_exponentOf (m : Nat) (k : Int) : -1074 ≤ exponentOf m k := le_max_right _ _

theorem targetExponent_eq (m : Nat) (k : Int) :
    Format.binary64.targetExponent (totalExponent m k) = exponentOf m k := rfl

theorem Canonical.exponentOf_eq {m : Nat} {e : Int} (h : Canonical m e) : exponentOf m e = e := by
  obtain ⟨hpos, hlt, hle, hnormal⟩ := h
  have hm : m ≠ 0 := hpos.ne'
  have hlog : m.log2 < 53 := (Nat.log2_lt hm).mpr hlt
  unfold exponentOf
  obtain rfl | hnormal := hnormal
  · omega
  · have : 52 ≤ m.log2 := (Nat.le_log2 hm).mpr hnormal
    omega

namespace ExtendedMantissa

theorem mantissa_shift (em : ExtendedMantissa) (n : Nat) :
    (em >>> n).mantissa = em.mantissa / 2 ^ n := by
  induction n with
  | zero => exact (Nat.div_one _).symm
  | succ n ih =>
    have : (em >>> (n + 1)).mantissa = (em >>> n).mantissa / 2 := rfl
    rw [this, ih, Nat.div_div_eq_div_mul, pow_succ]

theorem shift_mul (m n : Nat) :
    (⟨m * 2 ^ n, false, false⟩ : ExtendedMantissa) >>> n = ⟨m, false, false⟩ := by
  induction n generalizing m with
  | zero => rw [pow_zero, mul_one]; rfl
  | succ n ih =>
    have hm : m * 2 ^ (n + 1) = m * 2 * 2 ^ n := by ring
    have : (⟨m * 2 ^ (n + 1), false, false⟩ : ExtendedMantissa) >>> (n + 1) =
      ((⟨m * 2 ^ (n + 1), false, false⟩ : ExtendedMantissa) >>> n).shiftRightOne := rfl
    rw [this, hm, ih]
    simp [ExtendedMantissa.shiftRightOne]

theorem le_roundedMantissa (em : ExtendedMantissa) :
    em.mantissa ≤ em.roundedMantissa ∧ em.roundedMantissa ≤ em.mantissa + 1 := by
  obtain ⟨m, round, sticky⟩ := em
  have := Nat.mod_lt m two_pos
  cases round <;> cases sticky <;>
    simp [ExtendedMantissa.roundedMantissa, ExtendedMantissa.accuracy,
      Accuracy.roundToNearestEven]
  omega

def rounded (m n : Nat) : Nat := ((⟨m, false, false⟩ : ExtendedMantissa) >>> n).roundedMantissa

theorem rounded_le {m n c : Nat} (h : m ≤ c * 2 ^ n) : rounded m n ≤ c := by
  obtain hlt | rfl := h.lt_or_eq
  · have hq : m / 2 ^ n < c := (Nat.div_lt_iff_lt_mul (Nat.two_pow_pos n)).mpr hlt
    have := (le_roundedMantissa ((⟨m, false, false⟩ : ExtendedMantissa) >>> n)).2
    rw [mantissa_shift] at this
    exact le_trans this hq
  · rw [rounded, shift_mul]
    rfl

theorem le_rounded {m n c : Nat} (h : c * 2 ^ n ≤ m) : c ≤ rounded m n := by
  have hq : c ≤ m / 2 ^ n := (Nat.le_div_iff_mul_le (Nat.two_pow_pos n)).mpr h
  have := (le_roundedMantissa ((⟨m, false, false⟩ : ExtendedMantissa) >>> n)).1
  rw [mantissa_shift] at this
  exact le_trans hq this

end ExtendedMantissa

open ExtendedMantissa

def settle (s : Sign) (r : Nat) (t : Int) : UnpackedFloat :=
  if h : r = 0 then .zero s
  else if r < 2 ^ 53 then .finite s r t (Nat.pos_of_ne_zero h)
  else .finite s (2 ^ 52) (t + 1) (Nat.two_pow_pos 52)

theorem log2_mul_two_pow {m : Nat} (hm : m ≠ 0) (n : Nat) : (m * 2 ^ n).log2 = m.log2 + n := by
  obtain ⟨hle, hlt⟩ := (Nat.log2_eq_iff hm).mp rfl
  have hne : m * 2 ^ n ≠ 0 := Nat.mul_ne_zero hm (Nat.two_pow_pos n).ne'
  refine (Nat.log2_eq_iff hne).mpr ⟨?_, ?_⟩
  · rw [pow_add]
    exact Nat.mul_le_mul_right _ hle
  · rw [add_right_comm, pow_add]
    exact (Nat.mul_lt_mul_right (Nat.two_pow_pos n)).mpr hlt

theorem shiftToTargetExponent_eq (m : Nat) (k : Int) :
    shiftToTargetExponent Format.binary64 m k .exact =
      ((⟨m, false, false⟩ : ExtendedMantissa) >>> (exponentOf m k - k).toNat,
        k + (exponentOf m k - k).toNat) := rfl

theorem lt_two_pow_exponentOf {m : Nat} {k : Int} (hm : m ≠ 0) (h : k ≤ exponentOf m k) :
    m < 2 ^ 53 * 2 ^ (exponentOf m k - k).toNat := by
  rw [← pow_add]
  refine (Nat.log2_lt hm).mp ?_
  unfold exponentOf at h ⊢
  omega

theorem exponentOf_le {r : Nat} {t : Int} (hr : r < 2 ^ 53) (ht : -1074 ≤ t) :
    exponentOf r t ≤ t := by
  have hlog : r.log2 < 53 := by
    obtain rfl | hne := eq_or_ne r 0
    · decide
    · exact (Nat.log2_lt hne).mpr hr
  unfold exponentOf
  omega

theorem shiftToTargetExponent_of_lt {r : Nat} {t : Int} (hr : r < 2 ^ 53) (ht : -1074 ≤ t) :
    shiftToTargetExponent Format.binary64 r t .exact = (⟨r, false, false⟩, t) := by
  have hzero : (exponentOf r t - t).toNat = 0 := by
    have := exponentOf_le hr ht
    omega
  rw [shiftToTargetExponent_eq, hzero, Int.natCast_zero, add_zero]
  rfl

theorem shiftToTargetExponent_two_pow {t : Int} (ht : -1074 ≤ t) :
    shiftToTargetExponent Format.binary64 (2 ^ 53) t .exact = (⟨2 ^ 52, false, false⟩, t + 1) := by
  have hone : (exponentOf (2 ^ 53) t - t).toNat = 1 := by
    rw [exponentOf, Nat.log2_two_pow]
    omega
  rw [shiftToTargetExponent_eq, hone, pow_succ 2 52, ← pow_one 2, ← pow_mul, shift_mul]
  rfl

/-- Where the exponent is not above that of the double, the mantissa is rounded once. -/
theorem roundWithAccuracy_eq (s : Sign) {m : Nat} {k : Int} (hm : m ≠ 0) (h : k ≤ exponentOf m k) :
    roundWithAccuracy Format.binary64 s m k .exact =
      settle s (rounded m (exponentOf m k - k).toNat) (exponentOf m k) := by
  have hr : rounded m (exponentOf m k - k).toNat ≤ 2 ^ 53 :=
    rounded_le (lt_two_pow_exponentOf hm h).le
  have ht := neg_le_exponentOf m k
  have hk : k + ((exponentOf m k - k).toNat : Int) = exponentOf m k := by omega
  have hfirst : shiftToTargetExponent Format.binary64 m k .exact =
      ((⟨m, false, false⟩ : ExtendedMantissa) >>> (exponentOf m k - k).toNat, exponentOf m k) := by
    rw [shiftToTargetExponent_eq, hk]
  unfold roundWithAccuracy settle
  rw [hfirst]
  dsimp only
  rw [← rounded]
  generalize rounded m (exponentOf m k - k).toNat = r at hr ⊢
  -- the second shift is by nothing, unless the mantissa was rounded up to a 54th bit
  obtain hlt | rfl := hr.lt_or_eq
  · simp only [shiftToTargetExponent_of_lt hlt ht, hlt, if_true]
  · simp only [shiftToTargetExponent_two_pow ht, lt_irrefl, if_false]
    rw [dif_neg (Nat.two_pow_pos 52).ne', dif_neg (Nat.two_pow_pos 53).ne']

/-- What `m * 2 ^ k` is rounded to: a mantissa that is on the same side of any other. -/
structure Rounded (m : Nat) (k : Int) (r : Nat) : Prop where
  le : ∀ c, m * 2 ^ (k - exponentOf m k).toNat ≤ c * 2 ^ (exponentOf m k - k).toNat → r ≤ c
  ge : ∀ c, c * 2 ^ (exponentOf m k - k).toNat ≤ m * 2 ^ (k - exponentOf m k).toNat → c ≤ r

theorem exists_round (s : Sign) {m : Nat} (hm : m ≠ 0) (k : Int) :
    ∃ r, Rounded m k r ∧
      UnpackedFloat.round Format.binary64 s m k = settle s r (exponentOf m k) := by
  let j := (k - exponentOf m k).toNat
  have hne : m * 2 ^ j ≠ 0 := Nat.mul_ne_zero hm (Nat.two_pow_pos j).ne'
  have ht : exponentOf (m * 2 ^ j) (k - j) = exponentOf m k := by
    unfold exponentOf
    rw [log2_mul_two_pow hm]
    congr 1
    push_cast
    ring
  have hle : k - j ≤ exponentOf (m * 2 ^ j) (k - j) := by omega
  have hn : (exponentOf m k - (k - j)).toNat = (exponentOf m k - k).toNat := by omega
  refine ⟨rounded (m * 2 ^ j) (exponentOf m k - k).toNat,
    ⟨fun c => rounded_le, fun c => le_rounded⟩, ?_⟩
  have := roundWithAccuracy_eq s hne hle
  rw [ht, hn] at this
  rw [← this, UnpackedFloat.round, targetExponent_eq, decreaseExponent, Nat.shiftLeft_eq]

namespace Rounded

variable {m r : Nat} {k : Int}

theorem le_two_pow (h : Rounded m k r) (hm : m ≠ 0) : r ≤ 2 ^ 53 := by
  refine h.le _ ?_
  have hlt := (Nat.log2_eq_iff hm).mp rfl
  rw [← pow_add]
  refine ((Nat.log2_lt (Nat.mul_ne_zero hm (Nat.two_pow_pos _).ne')).mp ?_).le
  rw [log2_mul_two_pow hm]
  unfold exponentOf
  omega

theorem normal (h : Rounded m k r) (hm : m ≠ 0) : exponentOf m k = -1074 ∨ 2 ^ 52 ≤ r := by
  obtain he | he : exponentOf m k = -1074 ∨ exponentOf m k = m.log2 + 1 + k - 53 := by
    unfold exponentOf
    omega
  · exact .inl he
  · refine .inr (h.ge _ ?_)
    rw [← pow_add]
    refine (Nat.le_log2 (Nat.mul_ne_zero hm (Nat.two_pow_pos _).ne')).mp ?_
    rw [log2_mul_two_pow hm]
    omega

end Rounded

theorem settle_cases (s : Sign) {r : Nat} {t : Int} (hr : r ≤ 2 ^ 53) (ht : -1074 ≤ t)
    (hn : t = -1074 ∨ 2 ^ 52 ≤ r) :
    (r = 0 ∧ settle s r t = .zero s) ∨
      ∃ m e, ∃ h : Canonical m e, settle s r t = .finite s m e h.pos ∧
        (m = r ∧ e = t ∨ r = 2 ^ 53 ∧ m = 2 ^ 52 ∧ e = t + 1) := by
  unfold settle
  split
  · next h => exact .inl ⟨h, rfl⟩
  · next h =>
    split
    · next hlt =>
      exact .inr ⟨r, t, ⟨Nat.pos_of_ne_zero h, hlt, ht, hn⟩, rfl, .inl ⟨rfl, rfl⟩⟩
    · next hlt =>
      have hc : Canonical (2 ^ 52) (t + 1) :=
        ⟨Nat.two_pow_pos 52, Nat.pow_lt_pow_right one_lt_two (by omega), by omega, .inr le_rfl⟩
      exact .inr ⟨2 ^ 52, t + 1, hc, rfl, .inr ⟨by omega, rfl, rfl⟩⟩

def Below (m : Nat) (e : Int) (n : Nat) (f : Int) : Prop := e < f ∨ e = f ∧ m ≤ n

theorem exponentOf_mono {m n : Nat} {k : Int} (hm : m ≠ 0) (h : m ≤ n) :
    exponentOf m k ≤ exponentOf n k := by
  have hlog : m.log2 ≤ n.log2 := (Nat.le_log2 (by omega)).mpr (le_trans (Nat.log2_self_le hm) h)
  unfold exponentOf
  omega

theorem Canonical.exponentOf_shift {m : Nat} {e k : Int} (h : Canonical m e) (hk : k ≤ e) :
    exponentOf (m * 2 ^ (e - k).toNat) k = e := by
  have hlog := log2_mul_two_pow h.pos.ne' (e - k).toNat
  conv => rhs; rw [← h.exponentOf_eq]
  unfold exponentOf
  omega

variable {m n : Nat} {e k : Int}

theorem round_below (s : Sign) (h : Canonical m e) (hk : k ≤ e) (hn : n ≠ 0)
    (hle : n ≤ m * 2 ^ (e - k).toNat) :
    UnpackedFloat.round Format.binary64 s n k = .zero s ∨
      ∃ m' e', ∃ h' : Canonical m' e',
        UnpackedFloat.round Format.binary64 s n k = .finite s m' e' h'.pos ∧ Below m' e' m e := by
  obtain ⟨r, hr, heq⟩ := exists_round s hn k
  have ht : exponentOf n k ≤ e := h.exponentOf_shift hk ▸ exponentOf_mono hn hle
  rw [heq]
  obtain ⟨-, hzero⟩ | ⟨m', e', h', hfinite, hshape⟩ :=
    settle_cases s (hr.le_two_pow hn) (neg_le_exponentOf _ _) (hr.normal hn)
  · exact .inl hzero
  refine .inr ⟨m', e', h', hfinite, ?_⟩
  obtain hlt | rfl := ht.lt_or_eq
  · obtain ⟨rfl, rfl⟩ | ⟨-, rfl, rfl⟩ := hshape
    · exact .inl hlt
    · -- the rounded mantissa has got the exponent of the next power of two
      have hnormal : 2 ^ 52 ≤ m := by
        have := neg_le_exponentOf n k
        exact h.normal.resolve_left (by omega)
      unfold Below
      omega
  · have hzero : (k - exponentOf n k).toNat = 0 := by omega
    have hrm : r ≤ m := hr.le m (by rwa [hzero, pow_zero, mul_one])
    have := h.lt
    obtain ⟨rfl, rfl⟩ | ⟨rfl, -, -⟩ := hshape
    · exact .inr ⟨rfl, hrm⟩
    · omega

theorem below_round (s : Sign) (h : Canonical m e) (hk : k ≤ e)
    (hle : m * 2 ^ (e - k).toNat ≤ n) :
    ∃ m' e', ∃ h' : Canonical m' e',
      UnpackedFloat.round Format.binary64 s n k = .finite s m' e' h'.pos ∧ Below m e m' e' := by
  have hpos : 0 < m * 2 ^ (e - k).toNat := Nat.mul_pos h.pos (Nat.two_pow_pos _)
  have hn : n ≠ 0 := by omega
  obtain ⟨r, hr, heq⟩ := exists_round s hn k
  have ht : e ≤ exponentOf n k := h.exponentOf_shift hk ▸ exponentOf_mono hpos.ne' hle
  have hmr : e = exponentOf n k → m ≤ r := by
    rintro rfl
    have hzero : (k - exponentOf n k).toNat = 0 := by omega
    exact hr.ge m (by rwa [hzero, pow_zero, mul_one])
  have hnormal := hr.normal hn
  rw [heq]
  obtain ⟨rfl, -⟩ | ⟨m', e', h', hfinite, hshape⟩ :=
    settle_cases s (hr.le_two_pow hn) (neg_le_exponentOf _ _) hnormal
  · have := h.pos
    have := h.le
    omega
  · refine ⟨m', e', h', hfinite, ?_⟩
    unfold Below
    omega

def stored (u : UnpackedFloat) : UnpackedFloat :=
  unpack Format.binary64 (pack Format.binary64 u)

theorem unpackSign_packComponents (f : Format) (s : Sign) (e : BitVec f.exponentBits)
    (m : BitVec f.mantissaBitsWithoutImplicit) :
    Sign.ofBitVec (unpackSign (packComponents f s e m)) = s := by
  have : unpackSign (packComponents f s e m) = s.toBitVec := by
    refine BitVec.eq_of_getLsbD_eq fun i hi => ?_
    obtain rfl : i = 0 := by omega
    simp [unpackSign, packComponents, BitVec.getLsbD_append, BitVec.getElem_append]
  rw [this]
  cases s <;> rfl

theorem toNat_one_append (m : BitVec 52) : (1#1 ++ m).toNat = 2 ^ 52 + m.toNat := by
  have := Nat.two_pow_add_eq_or_of_lt m.isLt 1
  rw [mul_one] at this
  rw [BitVec.toNat_append, this]
  rfl

theorem canonical_of_unpack (b : BitVec Format.binary64.numBits) {s : Sign} {hm : 0 < m}
    (h : UnpackedFloat.unpack Format.binary64 b = .finite s m e hm) : Canonical m e ∧ e ≤ 971 := by
  have hf : (unpackMantissa b).toNat < 2 ^ 52 := (unpackMantissa b).isLt
  have hg : (unpackExponent b).toNat < 2 ^ 11 := (unpackExponent b).isLt
  have hbias : (Format.binary64.exponentBias : Int) = 1023 := by decide
  unfold UnpackedFloat.unpack at h
  dsimp only at h
  split at h
  · split at h <;> cases h
  · next hinfinite =>
    split at h
    · next hzero =>
      split at h
      · cases h
      · obtain ⟨-, rfl, rfl⟩ := UnpackedFloat.finite.inj h
        rw [hzero, hbias] at *
        refine ⟨⟨hm, by omega, ?_, .inl ?_⟩, ?_⟩ <;> decide
    · next hzero =>
      have hne : (unpackExponent b).toNat ≠ 0 := fun hg => hzero (BitVec.eq_of_toNat_eq hg)
      have hne' : (unpackExponent b).toNat ≠ 2047 := fun hg =>
        hinfinite (BitVec.eq_of_toNat_eq hg)
      obtain ⟨-, rfl, rfl⟩ := UnpackedFloat.finite.inj h
      rw [toNat_one_append, hbias] at *
      exact ⟨⟨by omega, by omega, by omega, .inr (by omega)⟩, by omega⟩

theorem stored_zero (s : Sign) : stored (.zero s) = .zero s := by
  cases s <;> rfl

theorem stored_infinity (s : Sign) : stored (.infinity s) = .infinity s := by
  cases s <;> rfl

theorem unpack_subnormal (s : Sign) (h : 0 < m) (hm : m < 2 ^ 52) :
    UnpackedFloat.unpack Format.binary64
      (packComponents Format.binary64 s 0#11 (BitVec.ofNat 52 m)) = .finite s m (-1074) h := by
  have hnat : (BitVec.ofNat 52 m).toNat = m := by
    rw [BitVec.toNat_ofNat, Nat.mod_eq_of_lt hm]
  have hne : BitVec.ofNat 52 m ≠ 0#52 := by
    intro hzero
    rw [hzero] at hnat
    exact h.ne hnat
  rw [UnpackedFloat.unpack]
  simp only [unpackExponent_packComponents, unpackMantissa_packComponents,
    unpackSign_packComponents, hnat]
  rw [if_neg (by decide), if_pos trivial, dif_neg hne]
  rfl

theorem unpack_normal (s : Sign) {g : Nat} (hg : 0 < g) (hg' : g < 2047) (hm : 2 ^ 52 ≤ m)
    (hm' : m < 2 ^ 53) :
    UnpackedFloat.unpack Format.binary64
      (packComponents Format.binary64 s (BitVec.ofNat 11 g) (BitVec.ofNat 52 m)) =
      .finite s m ((g : Int) - 1075) (by omega) := by
  have hgnat : (BitVec.ofNat 11 g).toNat = g := by
    rw [BitVec.toNat_ofNat, Nat.mod_eq_of_lt (by omega)]
  have hmnat : (1#1 ++ BitVec.ofNat 52 m).toNat = m := by
    rw [toNat_one_append, BitVec.toNat_ofNat]
    omega
  have hbias : (Format.binary64.exponentBias : Int) = 1023 := by decide
  have hinfinite : BitVec.ofNat 11 g ≠ -1#11 := by
    intro h
    rw [h] at hgnat
    exact absurd hgnat.symm (Nat.ne_of_lt hg')
  have hzero : BitVec.ofNat 11 g ≠ 0#11 := by
    intro h
    rw [h] at hgnat
    exact hg.ne hgnat
  rw [UnpackedFloat.unpack]
  simp only [unpackExponent_packComponents, unpackMantissa_packComponents,
    unpackSign_packComponents, hgnat, hmnat, hbias]
  rw [if_neg hinfinite, if_neg hzero]
  rfl

theorem pack_finite (s : Sign) (h : Canonical m e) :
    pack Format.binary64 (.finite s m e h.pos) =
      if e ≤ 971 then
        packComponents Format.binary64 s
          (if m < 2 ^ 52 then 0#11 else BitVec.ofNat 11 (e + 1075).toNat) (BitVec.ofNat 52 m)
      else packedInfinity Format.binary64 s := by
  have hbiased : e + Format.binary64.exponentBias + Format.binary64.mantissaBitsWithoutImplicit =
      e + 1075 := by
    have : (Format.binary64.exponentBias : Int) + Format.binary64.mantissaBitsWithoutImplicit =
      1075 := by decide
    omega
  have hinfinite : 2 ^ Format.binary64.exponentBits = 2048 := by norm_num
  have hbits : Format.binary64.mantissaBits = 53 := rfl
  have hlog : m.log2 + 1 = 53 ↔ ¬m < 2 ^ 52 := by
    have hlt := (Nat.log2_lt h.pos.ne').mpr h.lt
    rw [← Nat.log2_lt h.pos.ne']
    omega
  have hle := h.le
  rw [UnpackedFloat.pack]
  simp only [hbiased, hbits, hinfinite, hlog]
  by_cases he : e ≤ 971
  · rw [if_pos he, if_neg (show ¬2048 ≤ (e + 1075).toNat + 1 by omega)]
    by_cases hm : m < 2 ^ 52
    · rw [if_neg (not_not.mpr hm), if_pos hm]
    · rw [if_pos hm, if_neg hm]
  · rw [if_neg he, if_pos (show 2048 ≤ (e + 1075).toNat + 1 by omega)]

theorem stored_finite (s : Sign) (h : Canonical m e) :
    stored (.finite s m e h.pos) = if e ≤ 971 then .finite s m e h.pos else .infinity s := by
  have hle := h.le
  rw [stored, pack_finite s h]
  by_cases he : e ≤ 971
  · rw [if_pos he, if_pos he]
    by_cases hm : m < 2 ^ 52
    · obtain rfl := h.normal.resolve_right (not_le.mpr hm)
      rw [if_pos hm]
      exact unpack_subnormal s h.pos hm
    · have he' : ((e + 1075).toNat : Int) - 1075 = e := by omega
      rw [if_neg hm, unpack_normal s (by omega) (by omega) (not_lt.mp hm) h.lt]
      simp only [he']
  · rw [if_neg he, if_neg he]
    exact stored_infinity s

end LoadGenerator.Binary64
