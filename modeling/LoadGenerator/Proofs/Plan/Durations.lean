import LoadGenerator.Plan.Duration
import LoadGenerator.Proofs.Number.Literal
import LoadGenerator.Proofs.Number.Rounds

namespace LoadGenerator

namespace Literal

variable {negative : Bool} {s t : Bytes} {l : Literal}

/-- A byte that may end a literal; the letters of the units are not among them. -/
def Ends (b : UInt8) : Prop :=
  b.toNat < 65 ∨ Bytes.lowerByte b ∈ utf8 "fny"

instance (b : UInt8) : Decidable (Ends b) := inferInstanceAs (Decidable (_ ∨ _))

theorem ends_of_digit {b : UInt8} (h : Bytes.isDigit b = true) : Ends b := by
  have := Bytes.isDigit_iff.mp h
  exact .inl (by omega)

theorem ends_append (hs : ∀ b ∈ s.getLast?, Ends b) (ht : ∀ b ∈ t.getLast?, Ends b) :
    ∀ b ∈ (s ++ t).getLast?, Ends b := by
  intro b hb
  rw [List.getLast?_append, Option.mem_def, Option.or_eq_some_iff] at hb
  obtain hb | ⟨-, hb⟩ := hb
  · exact ht b hb
  · exact hs b hb

theorem ends_digits (h : ∀ b ∈ s, Bytes.isDigit b = true) : ∀ b ∈ s.getLast?, Ends b :=
  fun b hb => ends_of_digit (h b (List.mem_of_getLast? hb))

theorem ends_sameText {w : Bytes} {c : UInt8} (h : Bytes.sameText s w = true)
    (hw : w.toLower.getLast? = some c) (hc : c ∈ utf8 "fny") : ∀ b ∈ s.getLast?, Ends b := by
  intro b hb
  have hlower : s.toLower = w.toLower := beq_iff_eq.mp h
  rw [← hlower, Bytes.toLower, List.getLast?_map, hb, Option.map_some] at hw
  obtain rfl := Option.some.inj hw
  exact .inr hc

theorem Unsigned.ends (h : Unsigned negative s l) : ∀ b ∈ s.getLast?, Ends b := by
  cases h with
  | number hwhole hfraction _ hpower =>
    refine ends_append (ends_digits hwhole) (ends_append ?_ ?_)
    · cases hfraction with
      | none => nofun
      | some hdigits =>
        refine ends_append (s := [46]) ?_ (ends_digits hdigits)
        rintro b ⟨⟩
        exact .inl (by decide)
    · cases hpower with
      | none => nofun
      | @some mark sign digits _ _ _ hdigits =>
        rw [← List.cons_append, List.getLast?_append_of_ne_nil _ hdigits.1]
        exact ends_digits hdigits.2
  | infinity h =>
    obtain h | h := h
    · exact ends_sameText (c := 102) h rfl (by decide)
    · exact ends_sameText (c := 121) h rfl (by decide)
  | notNumber h hpayload =>
    refine ends_append (ends_sameText (c := 110) h rfl (by decide)) ?_
    cases hpayload with
    | none => nofun
    | @some word _ =>
      rw [← List.cons_append, List.getLast?_concat]
      rintro b ⟨⟩
      exact .inl (by decide)

theorem Spells.ends (h : Spells s l) : ∀ b ∈ s.getLast?, Ends b := by
  cases h with
  | positive h => exact h.ends
  | negative h =>
    refine ends_append (s := [45]) ?_ h.ends
    rintro b ⟨⟩
    exact .inl (by decide)

theorem Spells.ne_nil (h : Spells s l) : s ≠ [] := by
  rintro rfl
  cases whole?_eq_some_iff_spells.mpr h

end Literal

namespace Duration

def Unit.suffixes : Unit → List Bytes
  | .milliseconds => [utf8 "ms"]
  | .seconds => [[], utf8 "s"]
  | .minutes => [utf8 "m"]
  | .hours => [utf8 "h"]
  | .days => [utf8 "d"]

theorem splitUnit_spec (s : Bytes) :
    ∃ suffix ∈ (splitUnit s).2.suffixes, s = (splitUnit s).1 ++ suffix := by
  obtain ⟨r, rfl⟩ : ∃ r : Bytes, s = r.reverse := ⟨s.reverse, s.reverse_reverse.symm⟩
  rw [splitUnit, List.reverse_reverse]
  split
  · exact ⟨utf8 "ms", .head _, by simp; rfl⟩
  · exact ⟨utf8 "s", .tail _ (.head _), List.reverse_cons⟩
  · exact ⟨utf8 "m", .head _, List.reverse_cons⟩
  · exact ⟨utf8 "h", .head _, List.reverse_cons⟩
  · exact ⟨utf8 "d", .head _, List.reverse_cons⟩
  · exact ⟨[], .head _, (List.append_nil _).symm⟩

theorem splitUnit_append {number suffix : Bytes} {unit : Unit} (h : suffix ∈ unit.suffixes)
    (hnumber : ∀ b ∈ number.getLast?, Literal.Ends b) :
    splitUnit (number ++ suffix) = (number, unit) := by
  obtain ⟨r, rfl⟩ : ∃ r : Bytes, number = r.reverse := ⟨_, number.reverse_reverse.symm⟩
  rw [List.getLast?_reverse] at hnumber
  have hne {c : UInt8} (hc : ¬Literal.Ends c) (t : Bytes) : r ≠ c :: t := by
    rintro rfl
    exact hc (hnumber c rfl)
  rw [splitUnit, List.reverse_append, List.reverse_reverse]
  cases unit with
  | milliseconds | minutes | hours | days =>
    obtain rfl := List.mem_singleton.mp h
    rfl
  | seconds =>
    have hm := hne (c := 109) (by decide)
    obtain rfl | hs := List.mem_cons.mp h
    · have hs := hne (c := 115) (by decide)
      have hh := hne (c := 104) (by decide)
      have hd := hne (c := 100) (by decide)
      rw [List.reverse_nil, List.nil_append]
      split <;> simp_all
    · obtain rfl := List.mem_singleton.mp hs
      have hreverse : (utf8 "s").reverse ++ r = 115 :: r := rfl
      rw [hreverse]
      split <;> simp_all

theorem normal_scale (unit : Unit) :
    Binary64.Normal (unit.scale : Double).value.toModel.unpack := by
  cases unit with
  | milliseconds | seconds | minutes | hours | days =>
    exact ⟨_, _, ⟨by decide, by decide, by decide, .inr (by decide)⟩, by decide, rfl⟩

def Unit.factor (unit : Unit) : Rat := (unit.scale : Double).exact.size

/-- A literal with a unit after it, and blanks around. -/
inductive Written (text : Bytes) (l : Literal) (unit : Unit) : Prop
  | intro {number suffix : Bytes} (hspells : Literal.Spells number l)
      (hsuffix : suffix ∈ unit.suffixes) (htext : text.trim = number ++ suffix)

theorem written_iff {text : Bytes} {l : Literal} {unit : Unit} :
    Written text l unit ↔
      Literal.whole? (splitUnit text.trim).1 = some l ∧ (splitUnit text.trim).2 = unit := by
  constructor
  · rintro ⟨hspells, hsuffix, htext⟩
    rw [htext, splitUnit_append hsuffix hspells.ends]
    exact ⟨Literal.whole?_eq_some_iff_spells.mpr hspells, rfl⟩
  · rintro ⟨hwhole, rfl⟩
    obtain ⟨suffix, hsuffix, htext⟩ := splitUnit_spec text.trim
    exact ⟨Literal.whole?_eq_some_iff_spells.mp hwhole, hsuffix, htext⟩

theorem parse_eq_of_written {text : Bytes} {l : Literal} {unit : Unit} (h : Written text l unit) :
    parse text = match (Scalar.ofLiteral l : Option Double) with
      | none => .error (.invalid text)
      | some x => if x < Scalar.zero then .error .negative else .ok (x * unit.scale) := by
  have hne : text.trim ≠ [] := by
    obtain ⟨hspells, -, htext⟩ := h
    rw [htext]
    exact List.append_ne_nil_of_left_ne_nil hspells.ne_nil _
  obtain ⟨hwhole, rfl⟩ := written_iff.mp h
  rw [parse, if_neg (mt List.isEmpty_iff.mp hne)]
  dsimp only
  rw [hwhole, Option.bind_some]
  cases (Scalar.ofLiteral l : Option Double) <;> rfl

theorem written_of_parse {text : Bytes} {y : Double} (h : parse text = .ok y) :
    ∃ l unit, Written text l unit := by
  unfold parse at h
  split at h
  · cases h
  · dsimp only at h
    split at h
    · cases h
    · next x hx =>
      obtain ⟨l, hl, -⟩ := Option.bind_eq_some_iff.mp hx
      exact ⟨l, _, written_iff.mpr ⟨hl, rfl⟩⟩

/-- What becomes of a literal with a unit: the product of two doubles. -/
def Outcome (unit : Unit) : Literal → Binary64 → Prop
  | .number d, b => ∃ m e, Binary64.Rounds d.negative d.size (.finite d.negative m e) ∧
      Binary64.Rounds d.negative (m * 2 ^ e * unit.factor) b
  | .infinity negative, b => b = .infinite negative
  | .notNumber _, b => b = .notNumber

theorem outcome_mul {l : Literal} {unit : Unit} {x : Double} (hin : l.InRange)
    (h : l.Denotes x.exact) : Outcome unit l (x * unit.scale).exact := by
  have hscaled := Double.scaled_mul x (normal_scale unit)
  generalize x.exact = b at h hscaled
  cases l with
  | number d =>
    cases h with
    | near h hq hsize => exact ⟨_, _, .near h hq hsize, hscaled⟩
    | past hq => exact absurd (Double.size_lt_limit hin) hq.not_gt
  | infinity negative | notNumber negative =>
    obtain rfl := h
    exact hscaled

theorem parse_of_written {text : Bytes} {l : Literal} {unit : Unit} (h : Written text l unit) :
    (l.InRange ∧ ¬l.BelowZero ∧ ∃ y : Double, parse text = .ok y ∧
      Outcome unit l y.exact ∧ ¬y < Scalar.zero) ∨
    (¬(l.InRange ∧ ¬l.BelowZero) ∧ ∃ e, (parse text : Except Failure Double) = .error e) := by
  rw [parse_eq_of_written h]
  obtain ⟨hout, hnone⟩ | ⟨hin, x, hx, hdenotes⟩ := Double.ofLiteral?_cases l
  · have hnone : (Scalar.ofLiteral l : Option Double) = none := hnone
    rw [hnone]
    exact .inr ⟨fun hfits => hout hfits.1, _, rfl⟩
  · have hx : Scalar.ofLiteral l = some x := hx
    have hbelow : x < Scalar.zero ↔ l.BelowZero := by
      rw [Double.lt_zero_iff, Double.belowZero_iff hin hdenotes]
    rw [hx]
    dsimp only
    by_cases hl : l.BelowZero
    · rw [if_pos (hbelow.mpr hl)]
      exact .inr ⟨fun hfits => hfits.2 hl, _, rfl⟩
    · have hx' := mt hbelow.mp hl
      rw [if_neg hx']
      exact .inl ⟨hin, hl, _, rfl, outcome_mul hin hdenotes,
        Double.not_negative_mul hx' (normal_scale unit)⟩

theorem outcome_of_parse {text : Bytes} {l : Literal} {unit : Unit} {y : Double}
    (hy : parse text = .ok y) (h : Written text l unit) :
    Outcome unit l y.exact ∧ ¬y < Scalar.zero := by
  obtain ⟨-, -, y', hy', houtcome⟩ | ⟨-, e, he⟩ := parse_of_written h
  · rw [hy] at hy'
    obtain rfl := Except.ok.inj hy'
    exact houtcome
  · rw [hy] at he
    cases he

/-- The texts that are accepted, and the seconds that they are accepted as. -/
theorem parse_accepts (text : Bytes) :
    ((∃ y : Double, parse text = .ok y) ↔
      ∃ l unit, Written text l unit ∧ l.InRange ∧ ¬l.BelowZero) ∧
    ∀ (y : Double) (l : Literal) (unit : Unit), parse text = .ok y → Written text l unit →
      Outcome unit l y.exact ∧ ¬y < Scalar.zero := by
  refine ⟨⟨?_, ?_⟩, ?_⟩
  · rintro ⟨y, hy⟩
    obtain ⟨l, unit, h⟩ := written_of_parse hy
    obtain ⟨hin, hl, -⟩ | ⟨-, e, he⟩ := parse_of_written h
    · exact ⟨l, unit, h, hin, hl⟩
    · rw [hy] at he
      cases he
  · rintro ⟨l, unit, h, hfits⟩
    obtain ⟨-, -, y, hy, -⟩ | ⟨hout, -⟩ := parse_of_written h
    · exact ⟨y, hy⟩
    · exact absurd hfits hout
  · exact fun y l unit => outcome_of_parse

theorem parse_accepts_minutes : ∃ y : Double, parse (utf8 " 1.5m ") = .ok y ∧
    Written (utf8 " 1.5m ") (.number ⟨false, 15, -1⟩) .minutes ∧
      Outcome .minutes (.number ⟨false, 15, -1⟩) y.exact ∧ ¬y < Scalar.zero := by
  obtain ⟨y, hy⟩ : ∃ y : Double, parse (utf8 " 1.5m ") = .ok y := ⟨_, rfl⟩
  have h : Written (utf8 " 1.5m ") (.number ⟨false, 15, -1⟩) .minutes :=
    written_iff.mpr ⟨by decide, by decide⟩
  exact ⟨y, hy, h, (parse_accepts _).2 y _ _ hy h⟩

/-- Words are accepted like decimals, and a decimal that is in range may be scaled past the largest
double. -/
theorem accepted_not_finite :
    (parse (utf8 "nan")).map Double.exact = .ok .notNumber ∧
      (parse (utf8 "infinity")).map Double.exact = .ok (.infinite false) ∧
      (parse (utf8 "1e308d")).map Double.exact = .ok (.infinite false) := by
  decide +kernel

end Duration

end LoadGenerator
