import LoadGenerator.Number.Literal
import LoadGenerator.Proofs.Text.Bytes
import LoadGenerator.Proofs.Text.Numeral

namespace LoadGenerator.Literal

open Numeral (IsNumeral)

inductive Sign : Bytes → Bool → Prop
  | none : Sign [] false
  | plus : Sign [43] false
  | minus : Sign [45] true

inductive Power : Bytes → Int → Prop
  | none : Power [] 0
  | some {mark : UInt8} {sign digits : Bytes} {negative : Bool} (hmark : mark = 101 ∨ mark = 69)
      (hsign : Sign sign negative) (hdigits : IsNumeral digits) :
      Power (mark :: (sign ++ digits)) (Binary64.signed negative (Numeral.value digits))

inductive Fraction : Bytes → Bytes → Prop
  | none : Fraction [] []
  | some {digits : Bytes} (h : ∀ b ∈ digits, Bytes.isDigit b = true) :
      Fraction (46 :: digits) digits

inductive Payload : Bytes → Prop
  | none : Payload []
  | some {word : Bytes} (h : ∀ b ∈ word, Bytes.isWord b = true) : Payload (40 :: (word ++ [41]))

inductive Unsigned (negative : Bool) : Bytes → Literal → Prop
  | number {whole point fraction power : Bytes} {x : Int}
      (hwhole : ∀ b ∈ whole, Bytes.isDigit b = true) (hfraction : Fraction point fraction)
      (hdigits : whole ++ fraction ≠ []) (hpower : Power power x) :
      Unsigned negative (whole ++ (point ++ power))
        (.number ⟨negative, Numeral.value (whole ++ fraction), x - fraction.length⟩)
  | infinity {word : Bytes}
      (h : Bytes.sameText word (utf8 "inf") ∨ Bytes.sameText word (utf8 "infinity")) :
      Unsigned negative word (.infinity negative)
  | notNumber {word payload : Bytes} (h : Bytes.sameText word (utf8 "nan"))
      (hpayload : Payload payload) : Unsigned negative (word ++ payload) (.notNumber negative)

/-- How a literal is written. No plus sign stands before it. -/
inductive Spells : Bytes → Literal → Prop
  | positive {s : Bytes} {l : Literal} (h : Unsigned false s l) : Spells s l
  | negative {s : Bytes} {l : Literal} (h : Unsigned true s l) : Spells (45 :: s) l

variable {negative : Bool} {s t rest digits : Bytes} {x : Int} {l : Literal}

theorem digits_append (hs : ∀ b ∈ s, Bytes.isDigit b = true)
    (ht : ∀ b ∈ t.head?, Bytes.isDigit b = false) : Literal.digits (s ++ t) = (s, t) :=
  Prod.ext (Bytes.span_append hs ht).1 (Bytes.span_append hs ht).2

theorem append_of_digits (h : Literal.digits s = (digits, rest)) :
    s = digits ++ rest ∧ ∀ b ∈ digits, Bytes.isDigit b = true := by
  obtain ⟨rfl, rfl⟩ := Prod.mk.inj h
  exact ⟨List.takeWhile_append_dropWhile.symm, fun b hb => List.mem_takeWhile_imp hb⟩

theorem digits_of_forall (h : ∀ b ∈ s, Bytes.isDigit b = true) : Literal.digits s = (s, []) := by
  have := digits_append (t := []) h nofun
  rwa [List.append_nil] at this

theorem signed_eq (h : signed s = (negative, rest)) :
    ∃ sign, Sign sign negative ∧ s = sign ++ rest := by
  unfold signed at h
  split at h
  · obtain ⟨rfl, rfl⟩ := Prod.mk.inj h
    exact ⟨_, .minus, rfl⟩
  · obtain ⟨rfl, rfl⟩ := Prod.mk.inj h
    exact ⟨_, .plus, rfl⟩
  · obtain ⟨rfl, rfl⟩ := Prod.mk.inj h
    exact ⟨_, .none, rfl⟩

theorem signed_append {sign : Bytes} (h : Sign sign negative)
    (hs : ∀ b ∈ s, Bytes.isDigit b = true) : signed (sign ++ s) = (negative, s) := by
  cases h with
  | plus | minus => rfl
  | none =>
    rw [List.nil_append, signed]
    · rintro t rfl
      exact absurd (hs 45 List.mem_cons_self) (by decide)
    · rintro t rfl
      exact absurd (hs 43 List.mem_cons_self) (by decide)

theorem exponent_eq_nil_iff : exponent s = (x, []) ↔ Power s x := by
  constructor
  · intro h
    cases s with
    | nil =>
      obtain rfl : 0 = x := (Prod.mk.inj h).1
      exact .none
    | cons mark s =>
      rw [exponent] at h
      split at h
      · next hmark =>
        rcases hsigned : signed s with ⟨negative, rest⟩
        rcases hdigits : Literal.digits rest with ⟨digits, tail⟩
        simp only [hsigned, hdigits] at h
        split at h
        · cases (Prod.mk.inj h).2
        · next hne =>
          obtain ⟨rfl, rfl⟩ := Prod.mk.inj h
          obtain ⟨sign, hsign, rfl⟩ := signed_eq hsigned
          obtain ⟨rfl, hall⟩ := append_of_digits hdigits
          rw [List.append_nil]
          exact .some hmark hsign ⟨mt List.isEmpty_iff.mpr hne, hall⟩
      · cases (Prod.mk.inj h).2
  · intro h
    cases h with
    | none => rfl
    | some hmark hsign hdigits =>
      rw [exponent, if_pos hmark, signed_append hsign hdigits.2]
      dsimp only
      rw [digits_of_forall hdigits.2]
      simp [hdigits.1]

theorem Power.head (h : Power s x) : ∀ b ∈ s.head?, b = 101 ∨ b = 69 := by
  cases h with
  | none => nofun
  | some hmark _ _ =>
    rintro b ⟨⟩
    exact hmark

theorem fraction_eq (h : fraction s = (digits, rest)) :
    ∃ point, Fraction point digits ∧ s = point ++ rest := by
  unfold fraction at h
  split at h
  · obtain ⟨rfl, hall⟩ := append_of_digits h
    exact ⟨_, .some hall, rfl⟩
  · obtain ⟨rfl, rfl⟩ := Prod.mk.inj h
    exact ⟨_, .none, rfl⟩

theorem fraction_append {point : Bytes} (h : Fraction point digits)
    (hs : ∀ b ∈ s.head?, b = 101 ∨ b = 69) : fraction (point ++ s) = (digits, s) := by
  have hdigit : ∀ b ∈ s.head?, Bytes.isDigit b = false := fun b hb => by
    obtain rfl | rfl := hs b hb <;> rfl
  cases h with
  | none =>
    rw [List.nil_append, fraction]
    rintro t rfl
    exact absurd (hs 46 rfl) (by decide)
  | some hall => exact digits_append hall hdigit

theorem unsigned_of_number? (h : number? negative s = some (l, [])) : Unsigned negative s l := by
  rcases hwhole : Literal.digits s with ⟨whole, s₁⟩
  rcases hfraction : fraction s₁ with ⟨digits, s₂⟩
  rcases hpower : exponent s₂ with ⟨x, rest⟩
  simp only [number?, hwhole, hfraction, hpower] at h
  split at h
  · cases h
  · next hne =>
    obtain ⟨rfl, rfl⟩ := Prod.mk.inj (Option.some.inj h)
    obtain ⟨rfl, hall⟩ := append_of_digits hwhole
    obtain ⟨point, hpoint, rfl⟩ := fraction_eq hfraction
    exact .number hall hpoint (mt List.isEmpty_iff.mpr hne) (exponent_eq_nil_iff.mp hpower)

theorem number?_append {whole point fraction power : Bytes}
    (hwhole : ∀ b ∈ whole, Bytes.isDigit b = true) (hfraction : Fraction point fraction)
    (hdigits : whole ++ fraction ≠ []) (hpower : Power power x) :
    number? negative (whole ++ (point ++ power)) =
      some (.number ⟨negative, Numeral.value (whole ++ fraction), x - fraction.length⟩, []) := by
  have hhead : ∀ b ∈ (point ++ power).head?, Bytes.isDigit b = false := by
    intro b hb
    cases hfraction with
    | none => obtain rfl | rfl := hpower.head b hb <;> rfl
    | some _ =>
      obtain rfl : 46 = b := Option.some.inj hb
      rfl
  simp only [number?, digits_append hwhole hhead, fraction_append hfraction hpower.head,
    exponent_eq_nil_iff.mpr hpower, List.isEmpty_iff, hdigits, if_false]

theorem length_of_sameText {w : Bytes} (h : Bytes.sameText s w = true) : s.length = w.length := by
  have := congrArg List.length (beq_iff_eq.mp h)
  rwa [Bytes.toLower, Bytes.toLower, List.length_map, List.length_map] at this

theorem word?_eq_some_iff {word : String} :
    word? word s = some rest ↔ ∃ w, Bytes.sameText w (utf8 word) = true ∧ s = w ++ rest := by
  unfold word?
  dsimp only
  constructor
  · intro h
    split at h
    · next hw =>
      obtain rfl := Option.some.inj h
      exact ⟨_, hw, (List.take_append_drop _ s).symm⟩
    · cases h
  · rintro ⟨w, hw, rfl⟩
    have hlength := length_of_sameText hw
    rw [← hlength, List.take_left, List.drop_left, if_pos hw]

theorem head_of_word? {word : String} {c : UInt8} {r : Bytes} (hword : utf8 word = c :: r)
    (h : word? word s = some rest) : s.head?.map Bytes.lowerByte = some (Bytes.lowerByte c) := by
  obtain ⟨w, hw, rfl⟩ := word?_eq_some_iff.mp h
  have hlower := beq_iff_eq.mp hw
  rw [hword] at hlower
  cases w with
  | nil => cases hlower
  | cons b w => exact congrArg some (List.cons.inj hlower).1

theorem word?_eq_none {word : String} {c : UInt8} {r : Bytes} (hword : utf8 word = c :: r)
    (h : s.head?.map Bytes.lowerByte ≠ some (Bytes.lowerByte c)) : word? word s = none :=
  Option.eq_none_iff_forall_ne_some.mpr fun _ hrest => h (head_of_word? hword hrest)

theorem payload_eq_nil_iff : payload s = [] ↔ Payload s := by
  constructor
  · intro h
    unfold payload at h
    split at h
    · next rest =>
      have hsplit := List.takeWhile_append_dropWhile (p := Bytes.isWord) (l := rest)
      split at h
      · next hdrop =>
        rw [hdrop, h] at hsplit
        rw [← hsplit]
        exact .some fun b hb => List.mem_takeWhile_imp hb
      · cases h
    · rw [h]
      exact .none
  · intro h
    cases h with
    | none => rfl
    | some hword =>
      have hdrop := (Bytes.span_append (r := [41]) hword (by rintro b ⟨⟩; rfl)).2
      rw [payload, hdrop]
      rfl

theorem unsigned?_of_number {b : UInt8} (hb : s.head? = some b) (hlt : b.toNat < 65) :
    unsigned? negative s = number? negative s := by
  have hlower : Bytes.lowerByte b = b := by
    have hupper : Bytes.isUpper b = false := by
      simp only [Bytes.isUpper, Bool.and_eq_false_iff, decide_eq_false_iff_not,
        UInt8.le_iff_toNat_le]
      exact .inl (not_le.mpr hlt)
    rw [Bytes.lowerByte, hupper]
    rfl
  have hne {c : UInt8} (hc : 65 ≤ c.toNat) : s.head?.map Bytes.lowerByte ≠ some c := by
    rw [hb, Option.map_some, hlower]
    rintro ⟨⟩
    omega
  rw [unsigned?, word?_eq_none (r := utf8 "nfinity") rfl (hne (by decide)),
    word?_eq_none (r := utf8 "nf") rfl (hne (by decide)),
    word?_eq_none (r := utf8 "an") rfl (hne (by decide))]

theorem exists_head_number {whole point fraction power : Bytes}
    (hwhole : ∀ b ∈ whole, Bytes.isDigit b = true) (hfraction : Fraction point fraction)
    (hdigits : whole ++ fraction ≠ []) :
    ∃ b, (whole ++ (point ++ power)).head? = some b ∧ b.toNat < 65 := by
  cases whole with
  | cons b whole =>
    have := Bytes.isDigit_iff.mp (hwhole b List.mem_cons_self)
    exact ⟨b, rfl, by omega⟩
  | nil =>
    cases hfraction with
    | none => exact absurd rfl hdigits
    | some _ => exact ⟨46, rfl, by decide⟩

theorem unsigned?_eq_nil_iff :
    unsigned? negative s = some (l, []) ↔ Unsigned negative s l := by
  constructor
  · intro h
    unfold unsigned? at h
    split at h
    · next rest hword =>
      obtain ⟨rfl, rfl⟩ := Prod.mk.inj (Option.some.inj h)
      obtain ⟨w, hw, rfl⟩ := word?_eq_some_iff.mp hword
      rw [List.append_nil]
      exact .infinity (.inr hw)
    · next rest _ hword =>
      obtain ⟨rfl, rfl⟩ := Prod.mk.inj (Option.some.inj h)
      obtain ⟨w, hw, rfl⟩ := word?_eq_some_iff.mp hword
      rw [List.append_nil]
      exact .infinity (.inl hw)
    · next rest _ _ hword =>
      obtain ⟨rfl, hrest⟩ := Prod.mk.inj (Option.some.inj h)
      obtain ⟨w, hw, rfl⟩ := word?_eq_some_iff.mp hword
      exact .notNumber hw (payload_eq_nil_iff.mp hrest)
    · exact unsigned_of_number? h
  · intro h
    cases h with
    | number hwhole hfraction hdigits hpower =>
      obtain ⟨b, hb, hlt⟩ := exists_head_number hwhole hfraction hdigits
      rw [unsigned?_of_number hb hlt]
      exact number?_append hwhole hfraction hdigits hpower
    | infinity h =>
      obtain h | h := h
      · have hinfinity : word? "infinity" s = none := by
          refine Option.eq_none_iff_forall_ne_some.mpr fun rest hrest => ?_
          obtain ⟨w, hw, rfl⟩ := word?_eq_some_iff.mp hrest
          have hlength := length_of_sameText h
          rw [List.length_append, length_of_sameText hw] at hlength
          have hlonger : (utf8 "infinity").length = (utf8 "inf").length + 5 := rfl
          omega
        have hinf : word? "inf" s = some [] := word?_eq_some_iff.mpr ⟨s, h, by simp⟩
        rw [unsigned?, hinfinity, hinf]
      · have hinfinity : word? "infinity" s = some [] := word?_eq_some_iff.mpr ⟨s, h, by simp⟩
        rw [unsigned?, hinfinity]
    | @notNumber word payload h hpayload =>
      have hnan : word? "nan" (word ++ payload) = some payload :=
        word?_eq_some_iff.mpr ⟨word, h, rfl⟩
      have hhead := head_of_word? (r := utf8 "an") rfl hnan
      have hne : (word ++ payload).head?.map Bytes.lowerByte ≠ some (Bytes.lowerByte 105) := by
        rw [hhead]
        decide
      rw [unsigned?, word?_eq_none (r := utf8 "nfinity") rfl hne,
        word?_eq_none (r := utf8 "nf") rfl hne, hnan]
      dsimp only
      rw [payload_eq_nil_iff.mpr hpayload]

theorem not_unsigned_minus : ¬Unsigned negative (45 :: t) l := by
  intro h
  have hread := unsigned?_eq_nil_iff.mpr h
  have hnumber : number? negative (45 :: t) = none := rfl
  rw [unsigned?_of_number (b := 45) rfl (by decide), hnumber] at hread
  cases hread

theorem whole?_eq_some_iff_read? : whole? s = some l ↔ read? s = some (l, []) := by
  unfold whole?
  split
  · next h =>
    rw [h]
    simp
  · next hne =>
    exact iff_of_false nofun (hne l)

theorem whole?_eq_some_iff_spells : whole? s = some l ↔ Spells s l := by
  rw [whole?_eq_some_iff_read?]
  unfold read?
  split
  · rw [unsigned?_eq_nil_iff]
    refine ⟨.negative, fun h => ?_⟩
    cases h with
    | positive h => exact absurd h not_unsigned_minus
    | negative h => exact h
  · next hminus =>
    rw [unsigned?_eq_nil_iff]
    refine ⟨.positive, fun h => ?_⟩
    cases h with
    | positive h => exact h
    | negative h => exact absurd rfl (hminus _)

end LoadGenerator.Literal
