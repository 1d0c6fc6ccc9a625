import LoadGenerator.Proofs.Text.Bytes
import LoadGenerator.Text.Numeral
import Mathlib.Data.List.Induction
import Mathlib.Data.List.TakeWhile

namespace LoadGenerator

namespace Text

variable {n d : Nat}

theorem ofNat_ne_nil (n : Nat) : ofNat n ≠ [] :=
  List.map_eq_nil_iff.not.mpr Nat.toDigits_ne_nil

theorem ofNat_append_ofNat (hn : 0 < n) (hd : d < 10) :
    ofNat n ++ ofNat d = ofNat (10 * n + d) := by
  rw [ofNat, ofNat, ← List.map_append, Nat.toDigits_append_toDigits (by decide) hn hd]
  rfl

theorem toNat_digitChar : ∀ d < 10, (Nat.digitChar d).toUInt8.toNat = 48 + d := by decide

theorem toNat_ofNat_digit (hd : d < 10) : (UInt8.ofNat (48 + d)).toNat = 48 + d :=
  UInt8.toNat_ofNat_of_lt' (by rw [UInt8.size]; omega)

theorem ofNat_of_lt (hd : d < 10) : ofNat d = [UInt8.ofNat (48 + d)] := by
  rw [ofNat, Nat.toDigits_of_lt_base hd, List.map_singleton, List.singleton_inj, ← UInt8.toNat_inj,
    toNat_digitChar d hd, toNat_ofNat_digit hd]

end Text

namespace Bytes

variable {b : UInt8}

theorem isDigit_iff : isDigit b = true ↔ 48 ≤ b.toNat ∧ b.toNat ≤ 57 := by
  simp [isDigit, UInt8.le_iff_toNat_le]

theorem ofNat_toNat_sub (h : isDigit b = true) : Text.ofNat (b.toNat - 48) = [b] := by
  have hb := isDigit_iff.mp h
  have hadd : 48 + (b.toNat - 48) = b.toNat := by omega
  rw [Text.ofNat_of_lt (by omega), hadd, UInt8.ofNat_toNat]

end Bytes

namespace Numeral

variable {limit n : Nat} {s t digits rest : Bytes}

def IsNumeral (s : Bytes) : Prop := s ≠ [] ∧ ∀ b ∈ s, Bytes.isDigit b = true

instance (s : Bytes) : Decidable (IsNumeral s) :=
  decidable_of_iff (s ≠ [] ∧ s.all Bytes.isDigit = true) (and_congr_right' List.all_eq_true)

theorem value_append_singleton (s : Bytes) (b : UInt8) :
    value (s ++ [b]) = 10 * value s + (b.toNat - 48) := by
  rw [value, List.foldl_append]
  rfl

theorem IsNumeral.append (hs : IsNumeral s) (ht : IsNumeral t) : IsNumeral (s ++ t) := by
  refine ⟨List.append_ne_nil_of_left_ne_nil hs.1 t, fun b hb => ?_⟩
  rcases List.mem_append.mp hb with hb | hb
  · exact hs.2 b hb
  · exact ht.2 b hb

theorem isNumeral_ofNat (n : Nat) : IsNumeral (Text.ofNat n) := by
  induction n using Nat.strongRecOn with
  | ind n ih =>
    by_cases hn : n < 10
    · rw [Text.ofNat_of_lt hn]
      refine ⟨List.cons_ne_nil _ _, fun b hb => ?_⟩
      rw [List.mem_singleton.mp hb, Bytes.isDigit_iff, Text.toNat_ofNat_digit hn]
      omega
    · have hsplit := Text.ofNat_append_ofNat (n := n / 10) (by omega) (Nat.mod_lt n (by omega))
      rw [Nat.div_add_mod] at hsplit
      exact hsplit ▸ (ih _ (by omega)).append (ih _ (by omega))

theorem value_ofNat (n : Nat) : value (Text.ofNat n) = n := by
  induction n using Nat.strongRecOn with
  | ind n ih =>
    by_cases hn : n < 10
    · rw [Text.ofNat_of_lt hn, ← List.nil_append [_], value_append_singleton,
        Text.toNat_ofNat_digit hn]
      simp [value]
    · have hd : n % 10 < 10 := Nat.mod_lt n (by omega)
      have hsplit := Text.ofNat_append_ofNat (n := n / 10) (by omega) hd
      rw [Nat.div_add_mod] at hsplit
      rw [← hsplit, Text.ofNat_of_lt hd, value_append_singleton, ih _ (by omega),
        Text.toNat_ofNat_digit hd]
      omega

theorem value_replicate_append (zeros : Nat) (s : Bytes) :
    value (List.replicate zeros 48 ++ s) = value s := by
  induction zeros with
  | zero => rfl
  | succ zeros ih =>
    rw [← ih, value, List.replicate_succ]
    rfl

theorem IsNumeral.exists_zeros (h : IsNumeral s) :
    ∃ zeros, s = List.replicate zeros 48 ++ Text.ofNat (value s) := by
  induction s using List.reverseRecOn with
  | nil => exact absurd rfl h.1
  | append_singleton s b ih =>
    have hb : Bytes.isDigit b = true := h.2 b (by simp)
    have hdigit := Bytes.isDigit_iff.mp hb
    rw [value_append_singleton]
    by_cases hs : s = []
    · subst hs
      refine ⟨0, ?_⟩
      rw [← Bytes.ofNat_toNat_sub hb]
      simp [value]
    · -- after nothing but zeros, the last digit is all that is left of the number
      obtain ⟨zeros, hzeros⟩ := ih ⟨hs, fun c hc => h.2 c (by simp [hc])⟩
      by_cases hv : value s = 0
      · refine ⟨zeros + 1, ?_⟩
        rw [hv] at hzeros ⊢
        rw [hzeros, Nat.mul_zero, Nat.zero_add, Bytes.ofNat_toNat_sub hb, List.replicate_succ']
        rfl
      · refine ⟨zeros, ?_⟩
        rw [← Text.ofNat_append_ofNat (Nat.pos_of_ne_zero hv) (by omega),
          Bytes.ofNat_toNat_sub hb, ← List.append_assoc, ← hzeros]

theorem isNumeral_replicate_append (zeros : Nat) (h : IsNumeral s) :
    IsNumeral (List.replicate zeros 48 ++ s) := by
  refine ⟨List.append_ne_nil_of_right_ne_nil _ h.1, fun b hb => ?_⟩
  rcases List.mem_append.mp hb with hb | hb
  · rw [List.eq_of_mem_replicate hb]
    rfl
  · exact h.2 b hb

theorem whole?_eq_some_iff :
    whole? limit s = some n ↔ IsNumeral s ∧ value s = n ∧ n ≤ limit := by
  unfold whole? read IsNumeral
  by_cases hs : ∀ b ∈ s, Bytes.isDigit b = true
  · have htake : s.takeWhile Bytes.isDigit = s := List.takeWhile_eq_self_iff.mpr hs
    have hdrop : s.dropWhile Bytes.isDigit = [] := List.dropWhile_eq_nil_iff.mpr hs
    simp only [htake, hdrop, List.isEmpty_iff]
    split <;> grind
  · have hdrop : s.dropWhile Bytes.isDigit ≠ [] := mt List.dropWhile_eq_nil_iff.mp hs
    split <;> grind

/-- A text begins with a numeral, and goes on with anything but a digit. -/
structure Opens (s digits rest : Bytes) : Prop where
  eq : s = digits ++ rest
  isNumeral : IsNumeral digits
  ends : ∀ b ∈ rest.head?, Bytes.isDigit b = false

theorem IsNumeral.opens (h : IsNumeral s) : Opens s s [] := ⟨(List.append_nil s).symm, h, nofun⟩

theorem read_of_opens (h : Opens s digits rest) :
    read limit s = if limit < value digits then .error .tooLarge else .ok (value digits, rest) := by
  obtain ⟨rfl, hdigits, hends⟩ := h
  obtain ⟨htake, hdrop⟩ := Bytes.span_append hdigits.2 hends
  have hempty : digits.isEmpty = false := by simpa using hdigits.1
  rw [read, htake, hdrop, hempty]
  rfl

theorem exists_opens (h : ∃ b ∈ s.head?, Bytes.isDigit b = true) :
    ∃ digits rest, Opens s digits rest := by
  obtain ⟨b, hb, hdigit⟩ := h
  refine ⟨s.takeWhile Bytes.isDigit, s.dropWhile Bytes.isDigit,
    List.takeWhile_append_dropWhile.symm, ⟨?_, fun c hc => List.mem_takeWhile_imp hc⟩, ?_⟩
  · obtain ⟨t, rfl⟩ := List.head?_eq_some_iff.mp hb
    rw [List.takeWhile_cons_of_pos hdigit]
    exact List.cons_ne_nil _ _
  · intro c hc
    have hnot := List.head?_dropWhile_not Bytes.isDigit s
    rw [Option.mem_def.mp hc] at hnot
    simpa using hnot

theorem read_of_not_opens (h : ∀ digits rest, ¬Opens s digits rest) :
    read limit s = .error .missing := by
  have hnone : s.takeWhile Bytes.isDigit = [] := by
    cases s with
    | nil => rfl
    | cons b s =>
      refine List.takeWhile_cons_of_neg fun hb => ?_
      obtain ⟨digits, rest, hopens⟩ := exists_opens (s := b :: s) ⟨b, rfl, hb⟩
      exact h digits rest hopens
  rw [read, hnone]
  rfl

theorem read_eq_ok_iff : read limit s = .ok (n, rest) ↔
    ∃ digits, Opens s digits rest ∧ value digits ≤ limit ∧ value digits = n := by
  constructor
  · intro hread
    by_cases h : ∃ digits rest, Opens s digits rest
    · obtain ⟨digits, rest', h⟩ := h
      rw [read_of_opens h] at hread
      split at hread
      · cases hread
      · next hfits =>
        obtain ⟨rfl, rfl⟩ := Prod.mk.inj (Except.ok.inj hread)
        exact ⟨digits, h, Nat.le_of_not_lt hfits, rfl⟩
    · rw [read_of_not_opens fun digits rest hopens => h ⟨digits, rest, hopens⟩] at hread
      cases hread
  · rintro ⟨digits, h, hfits, rfl⟩
    rw [read_of_opens h, if_neg (Nat.not_lt.mpr hfits)]

theorem read_of_isNumeral (h : IsNumeral s) :
    read limit s = if limit < value s then .error .tooLarge else .ok (value s, []) :=
  read_of_opens h.opens

inductive IsInteger : Int → Bytes → Prop
  | plain {s : Bytes} (h : IsNumeral s) : IsInteger (value s) s
  | minus {s : Bytes} (h : IsNumeral s) : IsInteger (-(value s : Int)) (45 :: s)

theorem IsInteger.ne_nil {z : Int} (h : IsInteger z s) : s ≠ [] := by
  cases h with
  | plain h => exact h.1
  | minus h => exact List.cons_ne_nil _ _

theorem map_read_of_isNumeral {α : Type} (h : IsNumeral s) (f : Nat × Bytes → α) :
    (read limit s).map f =
      if value s ≤ limit then .ok (f (value s, [])) else .error .tooLarge := by
  rw [read_of_isNumeral h]
  split
  · next hlarge => rw [if_neg hlarge.not_ge]; rfl
  · next hlarge => rw [if_pos (Nat.le_of_not_lt hlarge)]; rfl

theorem readSigned_of_isInteger {z : Int} (h : IsInteger z s) : readSigned 64 s =
    if -(Word.half : Int) ≤ z ∧ z < Word.half then .ok (z, []) else .error .tooLarge := by
  have hhalf : 1 <<< (64 - 1) = Word.half := rfl
  have hpos : 0 < Word.half := by decide
  cases h with
  | plain h =>
    rw [readSigned, map_read_of_isNumeral h, hhalf]
    · exact if_congr (by omega) rfl rfl
    · -- a numeral has no sign in front
      rintro t rfl
      exact absurd (h.2 45 List.mem_cons_self) (by decide)
  | minus h =>
    rw [readSigned, map_read_of_isNumeral h, hhalf]
    exact if_congr (by omega) rfl rfl

inductive Sign where
  | none
  | plus
  | minus

namespace Sign

def text : Sign → Bytes
  | none => []
  | plus => [43]
  | minus => [45]

/-- The word that stands for a number with this sign; below zero, words begin again at the end. -/
def apply : Sign → Nat → Nat
  | minus, n => (Word.count - n) % Word.count
  | _, n => n

end Sign

/-- A text begins with a numeral after blanks and maybe a sign. -/
inductive OpensWord : Bytes → Sign → Bytes → Bytes → Prop
  | intro {blanks s digits rest : Bytes} (sign : Sign) (hblanks : ∀ b ∈ blanks, isSpace b = true)
    (h : Opens s digits rest) : OpensWord (blanks ++ (sign.text ++ s)) sign digits rest

theorem not_isSpace_of_isDigit {b : UInt8} (h : Bytes.isDigit b = true) : isSpace b = false := by
  have hb := Bytes.isDigit_iff.mp h
  have hspace : isSpace b = true ↔ b.toNat = 32 ∨ 9 ≤ b.toNat ∧ b.toNat ≤ 13 := by
    simp [isSpace, UInt8.le_iff_toNat_le, ← UInt8.toNat_inj]
  rw [Bool.eq_false_iff, ne_eq, hspace]
  omega

theorem Opens.exists_cons (h : Opens s digits rest) :
    ∃ b t, s = b :: t ∧ Bytes.isDigit b = true ∧ b ≠ 43 ∧ b ≠ 45 := by
  obtain ⟨rfl, ⟨hne, hdigits⟩, -⟩ := h
  obtain ⟨b, t, rfl⟩ := List.exists_cons_of_ne_nil hne
  have hb := hdigits b List.mem_cons_self
  refine ⟨b, t ++ rest, rfl, hb, ?_, ?_⟩
  · rintro rfl
    cases hb
  · rintro rfl
    cases hb

theorem dropWhile_of_opens {blanks : Bytes} (sign : Sign)
    (hblanks : ∀ b ∈ blanks, isSpace b = true) (h : Opens s digits rest) :
    (blanks ++ (sign.text ++ s)).dropWhile isSpace = sign.text ++ s := by
  refine (Bytes.span_append hblanks fun b hb => ?_).2
  cases sign with
  | none =>
    obtain ⟨c, t, rfl, hc, -, -⟩ := h.exists_cons
    obtain rfl : c = b := by simpa [Sign.text] using hb
    exact not_isSpace_of_isDigit hc
  | plus =>
    obtain rfl : 43 = b := by simpa [Sign.text] using hb
    rfl
  | minus =>
    obtain rfl : 45 = b := by simpa [Sign.text] using hb
    rfl

theorem readWord_of_opensWord {sign : Sign} (h : OpensWord s sign digits rest) :
    readWord s = if Word.largest < value digits then .error .tooLarge
      else .ok (sign.apply (value digits), rest) := by
  obtain @⟨blanks, t, digits, rest, sign, hblanks, h⟩ := h
  rw [readWord, dropWhile_of_opens sign hblanks h]
  cases sign with
  | none =>
    obtain ⟨b, t', ht, -, hplus, hminus⟩ := h.exists_cons
    rw [Sign.text, List.nil_append, Sign.apply, ← read_of_opens h, ht]
    · split
      · next heq => exact absurd (List.cons.inj heq).1 hplus
      · next heq => exact absurd (List.cons.inj heq).1 hminus
      · rfl
    · nofun
  | plus => exact read_of_opens h
  | minus =>
    change (read Word.largest t).map _ = _
    rw [read_of_opens h]
    split <;> rfl

theorem readWord_of_not_opensWord (h : ∀ sign digits rest, ¬OpensWord s sign digits rest) :
    readWord s = .error .missing := by
  have hsplit : s = s.takeWhile isSpace ++ s.dropWhile isSpace :=
    List.takeWhile_append_dropWhile.symm
  have hblanks : ∀ b ∈ s.takeWhile isSpace, isSpace b = true := fun b hb =>
    List.mem_takeWhile_imp hb
  -- behind the blanks, whatever stands behind a sign is no numeral
  have hnot : ∀ (sign : Sign) (t : Bytes), s.dropWhile isSpace = sign.text ++ t →
      read Word.largest t = .error .missing := by
    intro sign t ht
    refine read_of_not_opens fun digits rest hopens => h sign digits rest ?_
    rw [hsplit, ht]
    exact .intro sign hblanks hopens
  rw [readWord]
  split
  · next t ht => exact hnot .plus t ht
  · next t ht =>
    rw [hnot .minus t ht]
    rfl
  · exact hnot .none _ rfl

theorem readWord_eq_ok_iff : readWord s = .ok (n, rest) ↔ ∃ sign digits,
    OpensWord s sign digits rest ∧ value digits ≤ Word.largest ∧ sign.apply (value digits) = n := by
  by_cases h : ∃ sign digits rest, OpensWord s sign digits rest
  · obtain ⟨sign, digits, rest', h⟩ := h
    constructor
    · intro hread
      rw [readWord_of_opensWord h] at hread
      split at hread
      · cases hread
      · next hfits =>
        obtain ⟨rfl, rfl⟩ := Prod.mk.inj (Except.ok.inj hread)
        exact ⟨sign, digits, h, Nat.le_of_not_lt hfits, rfl⟩
    · rintro ⟨sign, digits, h, hfits, rfl⟩
      rw [readWord_of_opensWord h, if_neg (Nat.not_lt.mpr hfits)]
  · have hnot : ∀ sign digits rest, ¬OpensWord s sign digits rest :=
      fun sign digits rest hopens => h ⟨sign, digits, rest, hopens⟩
    rw [readWord_of_not_opensWord hnot]
    exact ⟨nofun, fun ⟨_, _, hopens, _⟩ => absurd hopens (hnot _ _ _)⟩

end Numeral

end LoadGenerator
