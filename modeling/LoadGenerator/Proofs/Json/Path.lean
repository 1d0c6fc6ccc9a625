import LoadGenerator.Json.Path
import LoadGenerator.Proofs.Text.Bytes
import LoadGenerator.Proofs.Text.Numeral

namespace LoadGenerator.Json.Path

open Numeral

inductive SpellsSegment : Segment → Bytes → Prop
  | key {name : Bytes} (hne : name ≠ []) (hname : ∀ b ∈ name, b ≠ 46 ∧ b ≠ 91) :
    SpellsSegment (.key name) (46 :: name)
  | index {digits : Bytes} (hdigits : IsNumeral digits) (hfits : value digits < Word.count) :
    SpellsSegment (.index (value digits)) (91 :: (digits ++ [93]))

/-- One segment after the other. -/
inductive Spells : List Segment → Bytes → Prop
  | nil : Spells [] []
  | cons {segment : Segment} {segments : List Segment} {t s : Bytes}
    (h : SpellsSegment segment t) (hs : Spells segments s) : Spells (segment :: segments) (t ++ s)

variable {offset : Nat} {s w name digits : Bytes} {b : UInt8} {segment : Segment}
  {found : List Segment}

theorem isKeyByte_iff : isKeyByte b = true ↔ b ≠ 46 ∧ b ≠ 91 := by
  simp [isKeyByte]

theorem Spells.ends_key (h : Spells found s) : ∀ b ∈ s.head?, isKeyByte b = false := by
  cases h with
  | nil => nofun
  | cons h hs =>
    intro b hb
    cases h <;> rw [← Option.some.inj hb] <;> rfl

theorem segments_nil : segments offset [] = .ok [] := by
  rw [segments]

theorem segments_unexpected (hpoint : b ≠ 46) (hbracket : b ≠ 91) :
    segments offset (b :: s) = .error (.unexpected b) := by
  rw [segments]
  · exact hpoint
  · exact hbracket

theorem key_eq_ok_iff : key offset s = .ok found ↔
    s.takeWhile isKeyByte ≠ [] ∧ ∃ more, found = .key (s.takeWhile isKeyByte) :: more ∧
      segments (offset + (s.takeWhile isKeyByte).length) (s.dropWhile isKeyByte) = .ok more := by
  rw [key]
  dsimp only
  split
  · next hname => simp [hname]
  · next hname =>
    cases segments (offset + (s.takeWhile isKeyByte).length) (s.dropWhile isKeyByte) <;>
      simp [hname, bind, Except.bind, eq_comm]

theorem segments_point : segments offset (46 :: s) = key (offset + 1) s := by
  rw [segments]

theorem segments_bracket_eq_ok_iff : segments offset (91 :: s) = .ok found ↔
    ∃ digits rest i more, Bytes.cutByte? 93 s = some (digits, rest) ∧
      whole? largestIndex digits = some i ∧ found = .index i :: more ∧
      segments (offset + digits.length + 2) rest = .ok more := by
  rw [segments]
  split
  · next hcut => simp [hcut]
  · next digits rest hcut =>
    split
    · next hwhole => simp [hcut, hwhole]
    · next i hwhole =>
      constructor
      · intro h
        cases hrest : segments (offset + digits.length + 2) rest with
        | error e => simp [hrest, bind, Except.bind] at h
        | ok more =>
          rw [hrest] at h
          exact ⟨digits, rest, i, more, hcut, hwhole, (Except.ok.inj h).symm, hrest⟩
      · rintro ⟨digits', rest', i', more, hcut', hwhole', rfl, hmore⟩
        cases hcut.symm.trans hcut'
        cases hwhole.symm.trans hwhole'
        rw [hmore]
        rfl

theorem spells_of_segments (h : segments offset s = .ok found) : Spells found s := by
  -- a segment may be of any length, so the induction is on what is left of the text
  induction hlength : s.length using Nat.strongRecOn generalizing s offset found with
  | ind n ih =>
    subst hlength
    cases s with
    | nil =>
      obtain rfl : found = [] := by simpa [segments_nil, eq_comm] using h
      exact .nil
    | cons b s =>
      by_cases hpoint : b = 46
      · subst hpoint
        rw [segments_point, key_eq_ok_iff] at h
        obtain ⟨hne, more, rfl, hmore⟩ := h
        have hlt := length_dropWhile_lt hne
        have hkey : SpellsSegment _ (46 :: s.takeWhile isKeyByte) :=
          .key hne fun b hb => isKeyByte_iff.mp (List.mem_takeWhile_imp hb)
        have hall := Spells.cons hkey (ih _ (Nat.lt_succ_of_lt hlt) hmore rfl)
        rwa [List.cons_append, List.takeWhile_append_dropWhile] at hall
      · by_cases hbracket : b = 91
        · subst hbracket
          obtain ⟨digits, rest, i, more, hcut, hwhole, rfl, hmore⟩ :=
            segments_bracket_eq_ok_iff.mp h
          obtain ⟨-, rfl⟩ := Bytes.cutByte?_eq_some.mp hcut
          obtain ⟨hdigits, rfl, hle⟩ := whole?_eq_some_iff.mp hwhole
          have hfits : value digits < Word.count := Nat.lt_of_le_pred (by decide) hle
          have hlt : rest.length < (91 :: (digits ++ 93 :: rest)).length := by
            simp
            omega
          have hall := Spells.cons (.index hdigits hfits) (ih _ hlt hmore rfl)
          rwa [List.cons_append, List.append_assoc] at hall
        · simp [segments_unexpected hpoint hbracket] at h

theorem segments_of_spells (h : Spells found s) : segments offset s = .ok found := by
  induction h generalizing offset with
  | nil => exact segments_nil
  | @cons segment more t s h hs ih =>
    cases h with
    | @key name hne hname =>
      have hkey : ∀ b ∈ name, isKeyByte b = true := fun b hb => isKeyByte_iff.mpr (hname b hb)
      obtain ⟨htake, hdrop⟩ := Bytes.span_append hkey hs.ends_key
      rw [List.cons_append, segments_point, key_eq_ok_iff, htake, hdrop]
      exact ⟨hne, more, rfl, ih⟩
    | @index digits hdigits hfits =>
      have hmem : 93 ∉ digits := fun hb => absurd (hdigits.2 93 hb) (by decide)
      rw [List.cons_append, List.append_assoc, segments_bracket_eq_ok_iff]
      exact ⟨digits, s, _, more, Bytes.cutByte?_append hmem,
        whole?_eq_some_iff.mpr ⟨hdigits, rfl, Nat.le_pred_of_lt hfits⟩, rfl, ih⟩

theorem segments_eq_ok_iff : segments offset s = .ok found ↔ Spells found s :=
  ⟨spells_of_segments, segments_of_spells⟩

/-- An index is written with so many zeros in front of it. -/
def Segment.text (zeros : Nat) : Segment → Bytes
  | .key name => 46 :: name
  | .index i => 91 :: (List.replicate zeros 48 ++ Text.ofNat i ++ [93])

/-- Not every segment can be written down. -/
def Segment.Spellable : Segment → Prop
  | .key name => name ≠ [] ∧ ∀ b ∈ name, b ≠ 46 ∧ b ≠ 91
  | .index i => i < Word.count

theorem spellsSegment_iff {t : Bytes} :
    SpellsSegment segment t ↔ segment.Spellable ∧ ∃ zeros, t = segment.text zeros := by
  constructor
  · intro h
    cases h with
    | key hne hname => exact ⟨⟨hne, hname⟩, 0, rfl⟩
    | index hdigits hfits =>
      obtain ⟨zeros, hzeros⟩ := hdigits.exists_zeros
      exact ⟨hfits, zeros, by rw [Segment.text, ← hzeros]⟩
  · rintro ⟨h, zeros, rfl⟩
    cases segment with
    | key name => exact .key h.1 h.2
    | index i =>
      have hvalue : value (List.replicate zeros 48 ++ Text.ofNat i) = i := by
        rw [value_replicate_append, value_ofNat]
      have hdigits := isNumeral_replicate_append zeros (isNumeral_ofNat i)
      have hspells := SpellsSegment.index hdigits (hvalue.symm ▸ h)
      rwa [hvalue] at hspells

theorem spells_iff : Spells found w ↔ (∀ segment ∈ found, segment.Spellable) ∧
    ∃ zeros : List Nat, zeros.length = found.length ∧
      w = (List.zipWith Segment.text zeros found).flatten := by
  induction found generalizing w with
  | nil =>
    constructor
    · intro h
      cases h
      exact ⟨nofun, [], rfl, rfl⟩
    · rintro ⟨-, zeros, -, rfl⟩
      rw [List.zipWith_nil_right]
      exact .nil
  | cons segment found ih =>
    rw [List.forall_mem_cons]
    constructor
    · intro h
      cases h with
      | cons h hs =>
        obtain ⟨hsegment, zeros, rfl⟩ := spellsSegment_iff.mp h
        obtain ⟨hfound, more, hlength, rfl⟩ := ih.mp hs
        exact ⟨⟨hsegment, hfound⟩, zeros :: more, by simp [hlength], rfl⟩
    · rintro ⟨⟨hsegment, hfound⟩, zeros, hlength, rfl⟩
      cases zeros with
      | nil => simp at hlength
      | cons zeros more =>
        exact .cons (spellsSegment_iff.mpr ⟨hsegment, zeros, rfl⟩)
          (ih.mpr ⟨hfound, more, by simpa using hlength, rfl⟩)

/-- Behind the root, every text is either read as the segments that it spells, or refused because it
spells none. The same segments have no other spellings than those with more or fewer zeros. -/
theorem parse_eq_ok_iff_spells (w : Bytes) (found : List Segment) :
    (parse (utf8 "$" ++ w) = .ok found ↔ Spells found w) ∧
      ((∃ e, parse (utf8 "$" ++ w) = .error e) ↔ ∀ found, ¬ Spells found w) ∧
      (Spells found w ↔ (∀ segment ∈ found, segment.Spellable) ∧
        ∃ zeros : List Nat, zeros.length = found.length ∧
          w = (List.zipWith Segment.text zeros found).flatten) := by
  have hparse : parse (utf8 "$" ++ w) = segments 1 w := rfl
  rw [hparse]
  have hread : ∀ found, segments 1 w = .ok found ↔ Spells found w := fun _ => segments_eq_ok_iff
  refine ⟨hread found, ?_, spells_iff⟩
  simp only [← hread]
  cases segments 1 w <;> simp

theorem key_eq_ok_iff_spells : key offset s = .ok found ↔ Spells found (46 :: s) := by
  rw [← @segments_eq_ok_iff 0 (46 :: s), segments_point, key_eq_ok_iff, key_eq_ok_iff]
  simp only [segments_eq_ok_iff]

theorem not_spells_bracket (found : List Segment) : ¬Spells found (46 :: 91 :: s) := by
  rw [← @key_eq_ok_iff_spells 0, key_eq_ok_iff]
  rintro ⟨hne, -⟩
  exact hne rfl

theorem parse_root : parse (36 :: s) = .ok found ↔ Spells found s := segments_eq_ok_iff

theorem parse_point : parse (46 :: s) = .ok found ↔ Spells found (46 :: s) := segments_eq_ok_iff

theorem parse_key (hroot : b ≠ 36) (hpoint : b ≠ 46) :
    parse (b :: s) = .ok found ↔ Spells found (46 :: b :: s) := by
  have hkey : parse (b :: s) = key 0 (b :: s) := by
    rw [parse]
    · nofun
    · simpa using hroot
    · simpa using hpoint
  rw [hkey, key_eq_ok_iff_spells]

/-- Both are read as the same segments, or both are refused. -/
def Agree (p q : Bytes) : Prop := ∀ found, parse p = .ok found ↔ parse q = .ok found

/-- The root in front of a path may be left out, and the point behind it too. A path that begins
with an index needs its root: without it nothing is read. -/
theorem agree_rooted (p : Bytes) :
    (p.head? = some 46 → Agree p (utf8 "$" ++ p)) ∧
      (p ≠ [] → p.head? ∉ [some 36, some 46, some 91] → Agree p (utf8 "$." ++ p)) ∧
      (p.head? = some 91 → (∀ found, parse p ≠ .ok found) ∧
        (Agree p (utf8 "$" ++ p) ↔ ∀ found, ¬Spells found p)) := by
  have hroot : ∀ found, parse (utf8 "$" ++ p) = .ok found ↔ Spells found p := fun _ => parse_root
  refine ⟨fun hp found => ?_, fun hne hp found => ?_, fun hp => ?_⟩
  · obtain ⟨s, rfl⟩ := List.head?_eq_some_iff.mp hp
    rw [hroot, parse_point]
  · obtain ⟨b, s, rfl⟩ := List.exists_cons_of_ne_nil hne
    have hfirst : b ≠ 36 ∧ b ≠ 46 := by simp_all
    have hdollar : parse (utf8 "$." ++ b :: s) = .ok found ↔ Spells found (46 :: b :: s) :=
      parse_root
    rw [parse_key hfirst.1 hfirst.2, hdollar]
  · obtain ⟨s, rfl⟩ := List.head?_eq_some_iff.mp hp
    have hrefused : ∀ found, parse (91 :: s) ≠ .ok found := fun found h =>
      not_spells_bracket found ((parse_key (by decide) (by decide)).mp h)
    refine ⟨hrefused, ?_⟩
    simp only [Agree, hroot, hrefused, false_iff]

theorem agree_rooted_keys :
    (utf8 ".items[0].id").head? = some 46 ∧ Agree (utf8 ".items[0].id") (utf8 "$.items[0].id") ∧
      (utf8 "items[0].id").head? ∉ [some 36, some 46, some 91] ∧
      Agree (utf8 "items[0].id") (utf8 "$.items[0].id") ∧
      ∀ found, parse (utf8 "[0].id") ≠ .ok found := by
  have hkey : (utf8 "items[0].id").head? ∉ [some 36, some 46, some 91] := by decide
  exact ⟨rfl, (agree_rooted _).1 rfl, hkey, (agree_rooted _).2.1 (by decide) hkey,
    ((agree_rooted _).2.2 rfl).1⟩

/-- The index of the root itself cannot be left without it. -/
theorem exists_root_needed :
    parse (utf8 "[0]") = .error (.emptyKey 0) ∧ parse (utf8 "$[0]") = .ok [.index 0] := by
  constructor
  · have hkey : parse (utf8 "[0]") = key 0 (utf8 "[0]") := rfl
    rw [hkey, key]
    rfl
  · have hspells : Spells [.index 0] (91 :: (Text.ofNat 0 ++ [93]) ++ []) :=
      .cons (.index (Numeral.isNumeral_ofNat 0) (by decide)) .nil
    exact parse_root.mpr hspells

end LoadGenerator.Json.Path
