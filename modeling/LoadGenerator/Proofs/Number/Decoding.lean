import LoadGenerator.Scalar.Double
import LoadGenerator.Proofs.Number.Nearest

namespace LoadGenerator

namespace Binary64

open Float.Model Float.Model.UnpackedFloat

theorem toNat_packComponents (s : Sign) (g : BitVec 11) (f : BitVec 52) :
    (packComponents Format.binary64 s g f).toNat =
      s.toBitVec.toNat * 2 ^ 63 + g.toNat * 2 ^ 52 + f.toNat := by
  have hg : s.toBitVec.toNat <<< 11 + g.toNat = s.toBitVec.toNat <<< 11 ||| g.toNat :=
    Nat.shiftLeft_add_eq_or_of_lt g.isLt _
  have hf := Nat.shiftLeft_add_eq_or_of_lt f.isLt (s.toBitVec.toNat <<< 11 + g.toNat)
  rw [hg] at hf
  rw [packComponents, BitVec.toNat_append, BitVec.toNat_append, ← hf, ← hg, Nat.shiftLeft_eq,
    Nat.shiftLeft_eq]
  ring

theorem toNat_unpackMantissa (b : BitVec Format.binary64.numBits) :
    (unpackMantissa b).toNat = b.toNat % 2 ^ 52 := by
  rw [unpackMantissa, BitVec.toNat_cast, BitVec.extractLsb_toNat]
  rfl

theorem toNat_unpackExponent (b : BitVec Format.binary64.numBits) :
    (unpackExponent b).toNat = b.toNat >>> 52 % 2 ^ 11 := by
  rw [unpackExponent, BitVec.toNat_cast, BitVec.extractLsb_toNat]
  rfl

theorem toNat_unpackSign (b : BitVec Format.binary64.numBits) :
    (unpackSign b).toNat = b.toNat >>> 63 % 2 ^ 1 := by
  rw [unpackSign, BitVec.toNat_cast, BitVec.extractLsb_toNat]
  rfl

def isNegativeSign : Sign → Bool
  | .negative => true
  | .positive => false

theorem isNegativeSign_unpackSign (b : BitVec Format.binary64.numBits) :
    isNegativeSign (.ofBitVec (unpackSign b)) = decide (Word.half ≤ b.toNat) := by
  have hlt : b.toNat < 2 ^ 64 := b.isLt
  have hhalf : Word.half = 2 ^ 63 := by decide
  have hsign : (unpackSign b).toNat = b.toNat / 2 ^ 63 := by
    rw [toNat_unpackSign, Nat.shiftRight_eq_div_pow]
    omega
  rw [hhalf]
  by_cases h : 2 ^ 63 ≤ b.toNat
  · have hne : unpackSign b ≠ 0#1 := fun hzero => by
      rw [hzero, BitVec.toNat_zero] at hsign
      omega
    rw [Sign.ofBitVec, if_neg hne, decide_eq_true h]
    rfl
  · have hzero : unpackSign b = 0#1 := BitVec.eq_of_toNat_eq (by
      rw [hsign, BitVec.toNat_zero]
      omega)
    rw [Sign.ofBitVec, if_pos hzero, decide_eq_false h]
    rfl

def ofUnpacked : UnpackedFloat → Binary64
  | .infinity s => .infinite (isNegativeSign s)
  | .notANumber => .notNumber
  | .zero s => .finite (isNegativeSign s) 0 (-1074)
  | .finite s m e _ => .finite (isNegativeSign s) m e

theorem ofFloat_eq (x : Float) : ofFloat x = ofUnpacked x.toModel.unpack := by
  let b : BitVec Format.binary64.numBits := x.toModel.toBits.toBitVec
  have hsign := isNegativeSign_unpackSign b
  have hexp := toNat_unpackExponent b
  have hman := toNat_unpackMantissa b
  have hleast : leastNormal = 2 ^ 52 := by decide
  have hbias : (Format.binary64.exponentBias : Int) = 1023 := by decide
  have hbits : x.toBits.toNat = b.toNat := rfl
  have hunpack : x.toModel.unpack = UnpackedFloat.unpack Format.binary64 b := rfl
  rw [ofFloat, hunpack, UnpackedFloat.unpack]
  dsimp only
  rw [hbits, hleast, ← hsign, ← hman, show 2048 = 2 ^ 11 from rfl, ← hexp]
  generalize Sign.ofBitVec (unpackSign b) = s
  generalize unpackExponent b = g
  have hinfinite : g.toNat = 2047 ↔ g = -1#11 := by
    rw [← BitVec.toNat_inj]
    rfl
  have hzero : g.toNat = 0 ↔ g = 0#11 := by
    rw [← BitVec.toNat_inj]
    rfl
  have hfraction : (unpackMantissa b).toNat = 0 ↔ unpackMantissa b = 0#52 := by
    rw [← BitVec.toNat_inj]
    rfl
  by_cases hg : g = -1#11
  · rw [if_pos (hinfinite.mpr hg), if_pos hg]
    by_cases hf : unpackMantissa b = 0#52
    · rw [if_pos (hfraction.mpr hf), if_pos hf]
      rfl
    · rw [if_neg (mt hfraction.mp hf), if_neg hf]
      rfl
  rw [if_neg (mt hinfinite.mp hg), if_neg hg]
  by_cases hg' : g = 0#11
  · rw [if_pos (hzero.mpr hg'), if_pos hg']
    by_cases hf : unpackMantissa b = 0#52
    · rw [dif_pos hf, hfraction.mpr hf]
      rfl
    · rw [dif_neg hf, hg']
      rfl
  · rw [if_neg (mt hzero.mp hg'), if_neg hg', ofUnpacked, toNat_one_append, hbias]
    rfl

theorem toNat_pack_zero (s : Sign) :
    (pack Format.binary64 (.zero s)).toNat = s.toBitVec.toNat * 2 ^ 63 := by
  cases s <;> rfl

theorem toNat_pack_finite (s : Sign) {m : Nat} {e : Int} (h : Canonical m e) (he : e ≤ 971) :
    (pack Format.binary64 (.finite s m e h.pos)).toNat = s.toBitVec.toNat * 2 ^ 63 +
      if m < 2 ^ 52 then m else (e + 1075).toNat * 2 ^ 52 + (m - 2 ^ 52) := by
  have hlt := h.lt
  have hle := h.le
  rw [pack_finite s h, if_pos he, toNat_packComponents, BitVec.toNat_ofNat]
  by_cases hm : m < 2 ^ 52
  · rw [if_pos hm, if_pos hm, Nat.mod_eq_of_lt hm, BitVec.toNat_zero]
    omega
  · rw [if_neg hm, if_neg hm, BitVec.toNat_ofNat, Nat.mod_eq_of_lt (by omega)]
    omega

def signOf (negative : Bool) : Sign := if negative then .negative else .positive

theorem isNegativeSign_signOf (negative : Bool) : isNegativeSign (signOf negative) = negative := by
  cases negative <;> rfl

section

variable {q : Rat} {r : Nat} {t : Int}

theorem bits?_of_shape {m : Nat} {e : Int} (hm : m < 2 ^ 53)
    (h : m = r ∧ e = t ∨ r = 2 ^ 53 ∧ m = 2 ^ 52 ∧ e = t + 1) :
    bits? r t = if m < 2 ^ 52 then some m
      else if 971 < e then none else some ((e + 1075).toNat * 2 ^ 52 + (m - 2 ^ 52)) := by
  unfold bits?
  rw [leastNormal_eq, ← pow_succ']
  obtain ⟨rfl, rfl⟩ | ⟨rfl, rfl, rfl⟩ := h
  · rw [if_neg hm.ne]
  · rw [if_pos rfl]

theorem Nearest.bits?_cases (h : Nearest q r t) (s : Sign) :
    (limit ≤ q ∧ bits? r t = none) ∨ (q < limit ∧ ∃ b, bits? r t = some b ∧
      (pack Format.binary64 (settle s r t)).toNat = s.toBitVec.toNat * 2 ^ 63 + b) := by
  obtain ⟨rfl, hzero⟩ | ⟨m, e, hc, hfinite, hshape⟩ :=
    Binary64.settle_cases s h.le_two_pow h.le h.two_pow_le
  · refine .inr ⟨(h.eq_zero_iff.mp rfl).trans_lt least_lt_limit, 0, rfl, ?_⟩
    rw [hzero, toNat_pack_zero, add_zero]
  · have hlimit : q < limit ↔ e ≤ 971 := by
      rw [← not_le, h.limit_le_iff]
      have := hc.lt
      omega
    have hnormal := hc.normal
    rw [bits?_of_shape hc.lt hshape, hfinite, ← not_lt, hlimit]
    by_cases he : e ≤ 971
    · refine .inr ⟨he, ?_⟩
      rw [toNat_pack_finite s hc he, if_neg (not_lt.mpr he)]
      split
      · exact ⟨_, rfl, rfl⟩
      · exact ⟨_, rfl, rfl⟩
    · refine .inl ⟨he, ?_⟩
      rw [if_neg (by omega), if_pos (by omega)]

theorem Nearest.stored_settle_of_lt (h : Nearest q r t) (hq : q < limit) (s : Sign) :
    stored (settle s r t) = settle s r t := by
  obtain ⟨-, hzero⟩ | ⟨-, m, e, hc, hfinite, hlimit⟩ := h.settle_cases s
  · rw [hzero, stored_zero]
  · rw [hfinite, stored_finite s hc, if_pos (hlimit.mpr hq)]

theorem unpack_ofBits {n : Nat} {u : UnpackedFloat} (h : (pack Format.binary64 u).toNat = n) :
    (Float.ofBits (UInt64.ofNat n)).toModel.unpack = stored (stored u) := by
  have hbits : (UInt64.ofNat n).toBitVec = pack Format.binary64 u := by
    refine BitVec.eq_of_toNat_eq ?_
    rw [← h]
    exact Nat.mod_eq_of_lt (pack Format.binary64 u).isLt
  rw [stored, stored, ← hbits]
  rfl

end

theorem nearest_zero : Nearest 0 0 (-1074) where
  le := le_rfl
  normal := .inl rfl
  lt := mul_pos (by norm_num) (two_zpow_pos _)
  lt_iff c := by
    have hpos : (0 : Rat) < (2 * c + 1) * 2 ^ (-1074 : Int) :=
      mul_pos (by positivity) (two_zpow_pos _)
    rw [mul_zero]
    exact iff_of_false (Nat.not_lt_zero c) (not_or.mpr ⟨hpos.not_gt, fun h => hpos.ne' h.1⟩)

theorem nearest?_cases (negative : Bool) (num : Nat) {den : Nat} (hd : den ≠ 0) :
    ∃ r t, Nearest (num / den) r t ∧
      ((limit ≤ (num / den : Rat) ∧ nearest? negative num den = none) ∨
        ((num / den : Rat) < limit ∧ ∃ x, nearest? negative num den = some x ∧
          x.toModel.unpack = settle (signOf negative) r t)) := by
  obtain ⟨r, t, h, hbits⟩ : ∃ r t, Nearest (num / den) r t ∧
      (if num = 0 then some 0 else nearestBits? num den) = bits? r t := by
    by_cases hn : num = 0
    · refine ⟨0, -1074, ?_, if_pos hn⟩
      rw [hn, Nat.cast_zero, zero_div]
      exact nearest_zero
    · rw [if_neg hn]
      exact exists_nearestBits hn hd
  refine ⟨r, t, h, ?_⟩
  rw [nearest?, hbits]
  obtain ⟨hq, hnone⟩ | ⟨hq, b, hb, hpack⟩ := h.bits?_cases (signOf negative)
  · exact .inl ⟨hq, by rw [hnone]; rfl⟩
  · refine .inr ⟨hq, _, by rw [hb]; rfl, ?_⟩
    have hsign : (signOf negative).toBitVec.toNat * 2 ^ 63 + b =
        if negative then Word.half + b else b := by
      cases negative
      · exact Nat.zero_add b
      · rfl
    rw [unpack_ofBits (hpack.trans hsign), h.stored_settle_of_lt hq, h.stored_settle_of_lt hq]

end Binary64

namespace Rounding

theorem scale_den_pos (n : Nat) (x : Int) : 0 < (scale n 1 x).2 := by
  unfold scale
  split
  · exact Nat.one_pos
  · rw [one_mul]
    exact Nat.pow_pos (by decide)

theorem scale_div (n : Nat) (x : Int) :
    ((scale n 1 x).1 / (scale n 1 x).2 : Rat) = n * 10 ^ x := by
  unfold scale
  split
  · next h =>
    obtain ⟨k, rfl⟩ : ∃ k : Nat, x = k := ⟨x.natAbs, by omega⟩
    simp
  · next h =>
    obtain ⟨k, rfl⟩ : ∃ k : Nat, x = -k := ⟨x.natAbs, by omega⟩
    simp [div_eq_mul_inv]

end Rounding

namespace Decimal

open Binary64

def size (d : Decimal) : Rat := d.coefficient * 10 ^ d.exponent

theorem size_eq_zero (d : Decimal) : d.size = 0 ↔ d.coefficient = 0 := by
  have hpow : (10 : Rat) ^ d.exponent ≠ 0 := zpow_ne_zero _ (by norm_num)
  rw [size, mul_eq_zero, or_iff_left hpow, Nat.cast_eq_zero]

theorem size_lt (d : Decimal) :
    d.size < 10 ^ (d.exponent + Rounding.digitCount d.coefficient) := by
  have hlt : d.coefficient < 10 ^ Rounding.digitCount d.coefficient :=
    (Nat.length_toDigits_le_iff (by decide) Nat.length_toDigits_pos).mp le_rfl
  rw [add_comm, zpow_add₀ (by norm_num), zpow_natCast, size]
  exact mul_lt_mul_of_pos_right (by exact_mod_cast hlt) (zpow_pos (by norm_num) _)

theorem le_size {d : Decimal} (h : d.coefficient ≠ 0) :
    10 ^ (d.exponent + Rounding.digitCount d.coefficient - 1) ≤ d.size := by
  obtain ⟨k, hk⟩ : ∃ k, Rounding.digitCount d.coefficient = k + 1 :=
    Nat.exists_eq_succ_of_ne_zero Nat.length_toDigits_pos.ne'
  have hle : 10 ^ k ≤ d.coefficient := by
    obtain rfl | hpos := k.eq_zero_or_pos
    · rw [pow_zero]
      omega
    · refine not_lt.mp (mt (Nat.length_toDigits_le_iff (by decide) hpos).mpr ?_)
      change ¬Rounding.digitCount d.coefficient ≤ k
      omega
  have hexp : d.exponent + (k + 1 : Nat) - 1 = k + d.exponent := by omega
  rw [hk, hexp, zpow_add₀ (by norm_num), zpow_natCast, size]
  exact mul_le_mul_of_nonneg_right (by exact_mod_cast hle) (zpow_pos (by norm_num) _).le

theorem two_zpow_le_ten (n : Nat) : (2 : Rat) ^ (3 * n : Int) ≤ 10 ^ (n : Int) := by
  rw [zpow_mul, zpow_natCast, zpow_natCast]
  exact pow_le_pow_left₀ (by norm_num) (by norm_num) n

theorem le_least {q : Rat} {x : Int} (hq : q < 10 ^ x) (hx : x < -400) : q ≤ least := by
  have hsmall : (10 : Rat) ^ x ≤ (10 ^ (401 : Int))⁻¹ := by
    rw [← zpow_neg]
    exact zpow_le_zpow_right₀ (by norm_num) (by omega)
  have hinv : ((10 : Rat) ^ (401 : Int))⁻¹ ≤ (2 ^ (1203 : Int))⁻¹ :=
    inv_anti₀ (two_zpow_pos _) (two_zpow_le_ten 401)
  have hleast : ((2 : Rat) ^ (1203 : Int))⁻¹ ≤ least := by
    rw [← zpow_neg]
    exact two_zpow_le (by decide)
  exact hq.le.trans (hsmall.trans (hinv.trans hleast))

theorem limit_le {q : Rat} {x : Int} (hq : 10 ^ (x - 1) ≤ q) (hx : 400 < x) : limit ≤ q := by
  have hlimit : limit ≤ 2 ^ (1200 : Int) :=
    (sub_le_self _ (two_zpow_pos 970).le).trans (two_zpow_le (by decide))
  have hlarge : (10 : Rat) ^ (400 : Int) ≤ 10 ^ (x - 1) :=
    zpow_le_zpow_right₀ (by norm_num) (by omega)
  exact hlimit.trans ((two_zpow_le_ten 400).trans (hlarge.trans hq))

theorem toFloat?_cases (d : Decimal) :
    ∃ r t, Nearest d.size r t ∧
      ((limit ≤ d.size ∧ d.toFloat? = none) ∨
        (d.size < limit ∧ ∃ x, d.toFloat? = some x ∧
          x.toModel.unpack = settle (signOf d.negative) r t)) := by
  have hden := (Rounding.scale_den_pos d.coefficient d.exponent).ne'
  obtain ⟨r, t, h, hcases⟩ :=
    nearest?_cases d.negative (Rounding.scale d.coefficient 1 d.exponent).1 hden
  rw [Rounding.scale_div, ← size] at h hcases
  refine ⟨r, t, h, ?_⟩
  unfold toFloat?
  dsimp only
  by_cases hzero : d.coefficient = 0 ∨
      d.exponent + Rounding.digitCount d.coefficient < -400
  · have hleast : d.size ≤ least := by
      obtain hc | hreach := hzero
      · rw [d.size_eq_zero.mpr hc]
        exact least_pos.le
      · exact le_least d.size_lt hreach
    rw [if_pos hzero, h.eq_zero_iff.mpr hleast]
    refine .inr ⟨hleast.trans_lt least_lt_limit, ?_⟩
    cases d.negative
    · exact ⟨_, rfl, rfl⟩
    · exact ⟨_, rfl, rfl⟩
  · rw [if_neg hzero]
    by_cases hfar : 400 < d.exponent + Rounding.digitCount d.coefficient
    · rw [if_pos hfar]
      exact .inl ⟨limit_le (le_size (not_or.mp hzero).1) hfar, rfl⟩
    · rw [if_neg hfar]
      exact hcases

end Decimal

end LoadGenerator
