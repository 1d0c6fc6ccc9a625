import LoadGenerator.Proofs.Scenario.Cookies
import LoadGenerator.Proofs.Text.Numeral

namespace LoadGenerator

open Bytes Numeral

variable {jar : CookieJar} {pair name v a key : Bytes} {attributes : List Bytes} {age : Int}

namespace SetCookie

/-- The attribute is named `Max-Age`, in whatever case, and has this value; there may be blanks
around either of them. -/
inductive HasMaxAge (value : Bytes) : Bytes → Prop
  | intro {key l m k r : Bytes} (hkey : sameText key (utf8 "max-age") = true)
      (hvalue : Trimmed value) (hl : Blank l) (hm : Blank m) (hk : Blank k) (hr : Blank r) :
      HasMaxAge value (l ++ (key ++ (m ++ 61 :: (k ++ (value ++ r)))))

def HasAge (age : Int) (a : Bytes) : Prop := ∃ value, HasMaxAge value a ∧ IsInteger age value

def Ends (age : Int) : Prop := -(Word.half : Int) ≤ age ∧ age ≤ 0

theorem lowerByte_mem (hkey : sameText key (utf8 "max-age") = true) {b : UInt8} (hb : b ∈ key) :
    lowerByte b ∈ utf8 "max-age" := by
  have hlower : key.toLower = (utf8 "max-age").toLower := by simpa [sameText] using hkey
  have hsame : (utf8 "max-age").toLower = utf8 "max-age" := by decide
  have hmem : lowerByte b ∈ key.toLower := List.mem_map_of_mem hb
  rwa [hlower, hsame] at hmem

theorem equals_not_mem (hkey : sameText key (utf8 "max-age") = true) : 61 ∉ key :=
  fun h => absurd (lowerByte_mem hkey h) (by decide)

theorem isBlank_eq_false (hkey : sameText key (utf8 "max-age") = true) :
    ∀ b ∈ key, isBlank b = false := by
  intro b hb
  rw [Bool.eq_false_iff]
  intro hblank
  obtain rfl | rfl : b = 32 ∨ b = 9 := by simpa [isBlank] using hblank
  · exact absurd (lowerByte_mem hkey hb) (by decide)
  · exact absurd (lowerByte_mem hkey hb) (by decide)

theorem ne_nil_of_sameText (hkey : sameText key (utf8 "max-age") = true) : key ≠ [] := by
  rintro rfl
  exact absurd hkey (by decide)

theorem isOver_iff (h : HasAge age a) : isOver a = true ↔ Ends age := by
  obtain ⟨value, @⟨key, l, m, k, r, hkey, hvalue, hl, hm, hk, hr⟩, hage⟩ := h
  have htrimmed : Trimmed key := trimmed_of_forall (isBlank_eq_false hkey)
  have htrim : trim (l ++ (key ++ (m ++ 61 :: (k ++ (value ++ r))))) =
      (key ++ m) ++ 61 :: (k ++ value) := by
    have hs := htrimmed.append_append hvalue (ne_nil_of_sameText hkey) hage.ne_nil (m ++ 61 :: k)
    simpa using trim_append hl hs hr
  have hequals : 61 ∉ key ++ m := by
    have hm' : 61 ∉ m := fun h => absurd (hm 61 h) (by decide)
    simp [equals_not_mem hkey, hm']
  have hname : trim (key ++ m) = key := trim_append (l := []) nofun htrimmed hm
  have htext : trim (k ++ value) = value := by simpa using trim_append (r := []) hk hvalue nofun
  rw [isOver, htrim, cutByte?_append hequals]
  dsimp only
  rw [hname, htext, hkey, readSigned_of_isInteger hage, Bool.true_and]
  have hpos : 0 < Word.half := by decide
  by_cases hfits : -(Word.half : Int) ≤ age ∧ age < Word.half
  · rw [if_pos hfits]
    simp only [decide_eq_true_eq, Ends, hfits.1, true_and]
  · rw [if_neg hfits]
    simp only [Bool.false_eq_true, false_iff, Ends]
    omega

theorem exists_maxAge (h : isOver a = true) : ∃ value, HasMaxAge value a := by
  unfold isOver at h
  split at h
  · simp at h
  · next n w hcut =>
    have hkey : sameText n.trim (utf8 "max-age") = true := (Bool.and_eq_true_iff.mp h).1
    obtain ⟨l, r, ha, hl, hr⟩ := exists_blanks a
    obtain ⟨l', m, hn, hl', hm⟩ := exists_blanks n
    obtain ⟨k, r', hw, hk, hr'⟩ := exists_blanks w
    refine ⟨w.trim, ?_⟩
    have hsplit : a = (l ++ l') ++ (n.trim ++ (m ++ 61 :: (k ++ (w.trim ++ (r' ++ r))))) := by
      calc a = l ++ (a.trim ++ r) := ha
        _ = l ++ ((n ++ 61 :: w) ++ r) := by rw [(cutByte?_eq_some.mp hcut).2]
        _ = l ++ (((l' ++ (n.trim ++ m)) ++ 61 :: (k ++ (w.trim ++ r'))) ++ r) := by
          rw [← hn, ← hw]
        _ = _ := by simp
    rw [hsplit]
    exact .intro hkey (trimmed_trim w) (hl.append hl') hm hk (hr'.append hr)

theorem parts_of_not_mem (h : 59 ∉ pair) : parts pair = (pair, []) := by
  rw [parts, cutByte?_eq_none.mpr h]
  rfl

theorem parts_join (h : 59 ∉ pair) :
    parts (join (utf8 ";") (pair :: attributes)) = (pair, join (utf8 ";") attributes) := by
  have hsep : utf8 ";" = [59] := by decide
  cases attributes with
  | nil =>
    have hjoin : join (utf8 ";") [pair] = pair := by simp [join]
    rw [hjoin, parts_of_not_mem h]
    rfl
  | cons first later =>
    rw [join_cons_cons, hsep, List.singleton_append, parts, cutByte?_append h]
    rfl

theorem parse?_join (h : 59 ∉ pair) :
    parse? (join (utf8 ";") (pair :: attributes)) = parse? pair := by
  rw [parse?, parse?, parts_join h, parts_of_not_mem h]

theorem expires_join (hpair : 59 ∉ pair) (h : ∀ a ∈ attributes, 59 ∉ a) :
    expires (join (utf8 ";") (pair :: attributes)) = attributes.any isOver := by
  rw [expires, parts_join hpair]
  cases attributes with
  | nil => rfl
  | cons first later =>
    have hsep : utf8 ";" = [59] := by decide
    have hsplit := splitOn_append_join List.not_mem_nil List.not_mem_nil h
    have hmap : later.map ([] ++ ·) = later := List.map_id' later
    rw [List.nil_append, List.nil_append, hmap] at hsplit
    rw [hsep, hsplit]

end SetCookie

namespace CookieJar

open SetCookie

/-- An age that can be read and leaves no time drops the cookie, whatever the other attributes are;
ages that leave time keep it, and so do those too far below zero to be read. No other cookie is
touched. -/
theorem set_maxAge (hpair : parse? pair = some (name, v)) (hv : v ≠ [])
    (h : ∀ piece ∈ pair :: attributes, 59 ∉ piece) :
    let later : CookieJar := jar.set (join (utf8 ";") (pair :: attributes))
    ((∃ a ∈ attributes, ∃ age, HasAge age a ∧ Ends age) → SortedMap.get? later name = none) ∧
    ((∀ a ∈ attributes, ∀ value, HasMaxAge value a → ∃ age, HasAge age a ∧ ¬Ends age) →
      SortedMap.get? later name = some v) ∧
    ∀ key, key ≠ name → SortedMap.get? later key = SortedMap.get? jar key := by
  obtain ⟨hsemicolon, hattributes⟩ := List.forall_mem_cons.mp h
  have hparse : parse? (join (utf8 ";") (pair :: attributes)) = some (name, v) :=
    (parse?_join hsemicolon).trans hpair
  have hget := @get?_set jar _ name v hparse
  rw [expires_join hsemicolon hattributes] at hget
  refine ⟨?_, ?_, ?_⟩
  · rintro ⟨a, ha, age, hage, hends⟩
    have hany : attributes.any isOver = true :=
      List.any_eq_true.mpr ⟨a, ha, (isOver_iff hage).mpr hends⟩
    rw [hget, if_pos rfl, if_pos (.inr hany)]
  · intro hall
    have hany : ¬attributes.any isOver = true := by
      intro hany
      obtain ⟨a, ha, hover⟩ := List.any_eq_true.mp hany
      obtain ⟨value, hvalue⟩ := exists_maxAge hover
      obtain ⟨age, hage, hends⟩ := hall a ha value hvalue
      exact hends ((isOver_iff hage).mp hover)
    rw [hget, if_pos rfl, if_neg (not_or.mpr ⟨hv, hany⟩)]
  · intro key hkey
    rw [hget, if_neg hkey]

theorem set_maxAge_zero :
    let jar : CookieJar := [(utf8 "sid", utf8 "1"), (utf8 "theme", utf8 "dark")]
    let dropped := jar.set (join (utf8 ";") [utf8 "sid=2", utf8 " Path=/", utf8 " MAX-Age =\t-0 "])
    let kept := jar.set (join (utf8 ";") [utf8 "sid=2", utf8 "max-age=18446744073709551616"])
    SortedMap.get? dropped (utf8 "sid") = none ∧
    SortedMap.get? dropped (utf8 "theme") = some (utf8 "dark") ∧
    SortedMap.get? kept (utf8 "sid") = some (utf8 "2") := by
  intro jar dropped kept
  have hpair : parse? (utf8 "sid=2") = some (utf8 "sid", utf8 "2") := by decide
  have hv : utf8 "2" ≠ [] := by decide
  have hspace : Blank (utf8 " ") := List.forall_mem_singleton.mpr rfl
  have htab : Blank (utf8 "\t") := List.forall_mem_singleton.mpr rfl
  have hnone : Blank [] := List.forall_mem_nil _
  have hzero : IsInteger (-(value (utf8 "0") : Int)) (utf8 "-0") :=
    .minus ⟨by decide, by decide +kernel⟩
  have hlarge : IsInteger (value (utf8 "18446744073709551616")) (utf8 "18446744073709551616") :=
    .plain ⟨by decide, by decide +kernel⟩
  have hdropped : HasMaxAge (utf8 "-0") (utf8 " MAX-Age =\t-0 ") :=
    .intro (by decide : sameText (utf8 "MAX-Age") _ = true) ⟨by decide +kernel, by decide +kernel⟩
      hspace hspace htab hspace
  have hkept : HasMaxAge (utf8 "18446744073709551616") (utf8 "max-age=18446744073709551616") :=
    .intro (by decide : sameText (utf8 "max-age") _ = true) ⟨by decide +kernel, by decide +kernel⟩
      hnone hnone hnone hnone
  have hset := @set_maxAge jar _ _ _ [utf8 " Path=/", utf8 " MAX-Age =\t-0 "] hpair hv
    (by decide +kernel)
  have hset' := @set_maxAge jar _ _ _ [utf8 "max-age=18446744073709551616"] hpair hv
    (by decide +kernel)
  refine ⟨hset.1 ⟨_, by simp, _, ⟨_, hdropped, hzero⟩, by unfold Ends; decide⟩, ?_, ?_⟩
  · rw [hset.2.2 (utf8 "theme") (by decide)]
    decide
  · refine hset'.2.1 (List.forall_mem_singleton.mpr fun _ _ => ⟨_, ⟨_, hkept, hlarge⟩, ?_⟩)
    unfold Ends
    decide

/-- A negative age of more than 64 bits is not read. -/
theorem exists_negative_kept : ∃ age, HasAge age (utf8 " Max-Age=-9223372036854775809") ∧ age ≤ 0 ∧
    SortedMap.get? (CookieJar.set [] (utf8 "sid=1; Max-Age=-9223372036854775809")) (utf8 "sid") =
      some (utf8 "1") := by
  have hspace : Blank (utf8 " ") := List.forall_mem_singleton.mpr rfl
  have hnone : Blank [] := List.forall_mem_nil _
  have hnegative : IsInteger (-(value (utf8 "9223372036854775809") : Int))
      (utf8 "-9223372036854775809") := .minus ⟨by decide, by decide +kernel⟩
  have hmaxAge : HasMaxAge (utf8 "-9223372036854775809") (utf8 " Max-Age=-9223372036854775809") :=
    .intro (by decide : sameText (utf8 "Max-Age") _ = true) ⟨by decide +kernel, by decide +kernel⟩
      hspace hnone hnone hnone
  exact ⟨_, ⟨_, hmaxAge, hnegative⟩, by omega, by decide +kernel⟩

end CookieJar

end LoadGenerator
