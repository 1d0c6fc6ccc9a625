import LoadGenerator.Http.Url
import LoadGenerator.Proofs.Text.Bytes
import LoadGenerator.Proofs.Text.Numeral

namespace LoadGenerator.Http

namespace Scheme

variable {scheme : Scheme} {s : Bytes}

theorem parse?_name (scheme : Scheme) : parse? scheme.name = some scheme := by
  cases scheme <;> decide

theorem toLower_of_parse? (h : parse? s = some scheme) : s.toLower = scheme.name := by
  unfold parse? at h
  split at h
  · next heq =>
    obtain rfl : Scheme.http = scheme := by simpa using h
    exact heq
  · split at h
    · next heq =>
      obtain rfl : Scheme.https = scheme := by simpa using h
      exact heq
    · simp at h

theorem not_mem_of_parse? (h : parse? s = some scheme) : 58 ∉ s := by
  intro hmem
  have hlower : Bytes.lowerByte 58 ∈ s.toLower := List.mem_map_of_mem hmem
  rw [toLower_of_parse? h] at hlower
  cases scheme <;> exact absurd hlower (by decide)

end Scheme

namespace Url

variable {scheme : Scheme} {before authority rest text base path host user fragment : Bytes}
  {u : Url}

def EndsAuthority (b : UInt8) : Prop := b = 35 ∨ b = 47 ∨ b = 63

instance (b : UInt8) : Decidable (EndsAuthority b) := inferInstanceAs (Decidable (_ ∨ _))

theorem withoutFragment_append (h : 35 ∉ before) :
    withoutFragment (before ++ rest) = before ++ withoutFragment rest := by
  refine List.takeWhile_append_of_pos fun b hb => ?_
  rw [bne_iff_ne]
  rintro rfl
  exact h hb

theorem withoutFragment_of_not_mem (h : 35 ∉ text) : withoutFragment text = text := by
  have happend : withoutFragment (text ++ []) = text ++ [] := withoutFragment_append h
  rwa [List.append_nil] at happend

theorem head_withoutFragment (h : ∀ b ∈ rest.head?, EndsAuthority b) :
    ∀ b ∈ (withoutFragment rest).head?, isAuthorityByte b = false := by
  intro b hb
  rw [withoutFragment, List.head?_takeWhile, Option.mem_def, Option.filter_eq_some_iff] at hb
  rcases h b hb.1 with rfl | rfl | rfl
  · simp at hb
  · rfl
  · rfl

theorem span_authority (hauthority : ∀ b ∈ authority, ¬ EndsAuthority b)
    (hrest : ∀ b ∈ rest.head?, EndsAuthority b) :
    (withoutFragment (authority ++ rest)).takeWhile isAuthorityByte = authority ∧
      (withoutFragment (authority ++ rest)).dropWhile isAuthorityByte = withoutFragment rest := by
  have hhash : 35 ∉ authority := fun hmem => hauthority 35 hmem (.inl rfl)
  have hbytes : ∀ b ∈ authority, isAuthorityByte b = true := by
    intro b hb
    have hends := hauthority b hb
    rw [EndsAuthority, not_or, not_or] at hends
    simp [isAuthorityByte, hends.2]
  rw [withoutFragment_append hhash]
  exact Bytes.span_append hbytes (head_withoutFragment hrest)

theorem parse_append (hscheme : Scheme.parse? before = some scheme)
    (hauthority : ∀ b ∈ authority, ¬ EndsAuthority b) (hrest : ∀ b ∈ rest.head?, EndsAuthority b) :
    parse (before ++ (schemeMark ++ (authority ++ rest))) =
      (endpoint scheme authority).map fun (host, port) =>
        ⟨scheme, host, port, targetOf (withoutFragment rest)⟩ := by
  have hmark : schemeMark = 58 :: utf8 "//" := by decide
  have hcut : Bytes.cut? schemeMark (before ++ (schemeMark ++ (authority ++ rest))) =
      some (before, authority ++ rest) := by
    rw [hmark]
    exact Bytes.cut?_append (Scheme.not_mem_of_parse? hscheme)
  obtain ⟨htake, hdrop⟩ := span_authority hauthority hrest
  rw [parse, hcut]
  dsimp only
  rw [hscheme]
  dsimp only
  rw [htake, hdrop]
  cases endpoint scheme authority <;> rfl

theorem exists_append_of_parse (h : parse text = .ok u) :
    ∃ before authority rest, Scheme.parse? before = some u.scheme ∧
      (∀ b ∈ authority, ¬ EndsAuthority b) ∧ (∀ b ∈ rest.head?, EndsAuthority b) ∧
      text = before ++ (schemeMark ++ (authority ++ rest)) ∧
      endpoint u.scheme authority = .ok (u.host, u.port) ∧
      u.target = targetOf (withoutFragment rest) := by
  cases hcut : Bytes.cut? schemeMark text with
  | none => simp [parse, hcut] at h
  | some p =>
    obtain ⟨before, after⟩ := p
    cases hscheme : Scheme.parse? before with
    | none => simp [parse, hcut, hscheme] at h
    | some scheme =>
      have hauthority : ∀ b ∈ after.takeWhile (¬ EndsAuthority ·), ¬ EndsAuthority b :=
        fun b hb => by simpa using List.mem_takeWhile_imp hb
      have hrest : ∀ b ∈ (after.dropWhile (¬ EndsAuthority ·)).head?, EndsAuthority b := by
        intro b hb
        have hnot := List.head?_dropWhile_not (¬ EndsAuthority ·) after
        rw [Option.mem_def.mp hb] at hnot
        simpa using hnot
      have hafter := List.takeWhile_append_dropWhile (p := (¬ EndsAuthority ·)) (l := after)
      rw [Bytes.append_of_cut? hcut, ← hafter] at h ⊢
      rw [parse_append hscheme hauthority hrest] at h
      cases hendpoint : endpoint scheme (after.takeWhile (¬ EndsAuthority ·)) with
      | error e =>
        rw [hendpoint] at h
        cases h
      | ok p =>
        rw [hendpoint] at h
        obtain rfl := Except.ok.inj h
        exact ⟨before, _, _, hscheme, hauthority, hrest, rfl, hendpoint, rfl⟩

/-- An address that can be written down. -/
structure Proper (u : Url) : Prop where
  host_ne_nil : u.host ≠ []
  host : ∀ b ∈ u.host, b ∉ utf8 "/?#@[]"
  port : 1 ≤ u.port ∧ u.port ≤ 65535
  target : u.target.head? = some 47
  hash_not_mem : 35 ∉ u.target

theorem targetOf_of_head (h : text.head? = some 47) : targetOf text = text := by
  cases text with
  | nil => simp at h
  | cons b s =>
    obtain rfl : b = 47 := by simpa using h
    rfl

theorem portOf_ofNat {port : Nat} (h : 1 ≤ port ∧ port ≤ 65535) :
    portOf scheme (Text.ofNat port) = .ok port := by
  have hwhole : Numeral.whole? 65535 (Text.ofNat port) = some port :=
    Numeral.whole?_eq_some_iff.mpr ⟨Numeral.isNumeral_ofNat port, Numeral.value_ofNat port, h.2⟩
  obtain ⟨n, rfl⟩ : ∃ n, port = n + 1 := ⟨port - 1, by omega⟩
  rw [portOf, if_neg (by simp [Text.ofNat_ne_nil]), hwhole]

def portPart (u : Url) : Bytes :=
  if u.port = u.scheme.defaultPort then [] else 58 :: Text.ofNat u.port

theorem portPart_eq (u : Url) : u.portPart = [] ∧ u.port = u.scheme.defaultPort ∨
    u.portPart = 58 :: Text.ofNat u.port := by
  rw [portPart]
  split
  · next hport => exact .inl ⟨rfl, hport⟩
  · exact .inr rfl

theorem hostHeader_eq (u : Url) :
    u.hostHeader = (if 58 ∈ u.host then 91 :: (u.host ++ [93]) else u.host) ++ u.portPart := by
  have hopen : utf8 "[" = [91] := by decide
  have hclose : utf8 "]" = [93] := by decide
  have hcolon : utf8 ":" = [58] := by decide
  rw [hostHeader, portPart, hopen, hclose, hcolon]
  by_cases hhost : 58 ∈ u.host <;> by_cases hport : u.port = u.scheme.defaultPort <;>
    simp [hhost, hport]

theorem mem_hostHeader {b : UInt8} (h : b ∈ u.hostHeader) :
    b ∈ u.host ∨ b ∈ [58, 91, 93] ∨ Bytes.isDigit b = true := by
  rw [hostHeader_eq, List.mem_append] at h
  rcases h with h | h
  · split at h
    · rw [List.mem_cons, List.mem_append, List.mem_singleton] at h
      rcases h with rfl | h | rfl
      · simp
      · exact .inl h
      · simp
    · exact .inl h
  · rw [portPart] at h
    split at h
    · simp at h
    · rcases List.mem_cons.mp h with rfl | h
      · simp
      · exact .inr (.inr ((Numeral.isNumeral_ofNat u.port).2 b h))

namespace Proper

theorem not_endsAuthority (h : u.Proper) : ∀ b ∈ u.hostHeader, ¬ EndsAuthority b := by
  intro b hb hends
  rcases mem_hostHeader hb with hb | hb
  · rcases hends with rfl | rfl | rfl <;> exact absurd (h.host _ hb) (by decide)
  · rcases hends with rfl | rfl | rfl <;> exact absurd hb (by decide)

theorem at_not_mem (h : u.Proper) : 64 ∉ u.hostHeader := by
  intro hb
  rcases mem_hostHeader hb with hb | hb
  · exact absurd (h.host _ hb) (by decide)
  · exact absurd hb (by decide)

theorem splitAuthority_eq (h : u.Proper) :
    splitAuthority u.hostHeader = .ok (u.host, u.portPart.tail) := by
  rw [hostHeader_eq]
  split
  · have hclose : 93 ∉ u.host := fun hb => absurd (h.host _ hb) (by decide)
    rw [List.cons_append, List.append_assoc, splitAuthority, List.singleton_append,
      Bytes.cutByte?_append hclose]
    rcases u.portPart_eq with ⟨hport, -⟩ | hport <;> rw [hport] <;> rfl
  · next hcolon =>
    have hopen : ∀ s, u.host ++ u.portPart ≠ 91 :: s := by
      obtain ⟨b, host, hhost⟩ := List.exists_cons_of_ne_nil h.host_ne_nil
      have hb : b ≠ 91 := by
        rintro rfl
        exact absurd (h.host 91 (by simp [hhost])) (by decide)
      simp [hhost, hb]
    rw [splitAuthority]
    · rcases u.portPart_eq with ⟨hport, -⟩ | hport
      · rw [hport, List.append_nil, Bytes.cutLastByte?_eq_none.mpr hcolon]
        rfl
      · have hdigits : 58 ∉ Text.ofNat u.port := fun hb =>
          absurd ((Numeral.isNumeral_ofNat u.port).2 58 hb) (by decide)
        rw [hport, Bytes.cutLastByte?_append hdigits]
        rfl
    · exact hopen

theorem portOf_eq (h : u.Proper) : portOf u.scheme u.portPart.tail = .ok u.port := by
  rcases u.portPart_eq with ⟨hpart, hport⟩ | hpart
  · rw [hpart, hport]
    rfl
  · rw [hpart]
    exact portOf_ofNat h.port

theorem endpoint_eq (h : u.Proper) (hrest : withoutUser rest = u.hostHeader) :
    endpoint u.scheme rest = .ok (u.host, u.port) := by
  rw [endpoint, hrest, h.splitAuthority_eq]
  show (if u.host.isEmpty then _ else (portOf u.scheme u.portPart.tail >>= _)) = _
  rw [if_neg (by simp [h.host_ne_nil]), h.portOf_eq]
  rfl

end Proper

theorem withoutUser_append (huser : user = [] ∨ user.getLast? = some 64) (h : 64 ∉ host) :
    withoutUser (user ++ host) = host := by
  rcases huser with rfl | hlast
  · rw [List.nil_append, withoutUser, Bytes.cutLastByte?_eq_none.mpr h]
    rfl
  · obtain ⟨name, rfl⟩ := List.getLast?_eq_some_iff.mp hlast
    rw [List.append_assoc, List.singleton_append, withoutUser, Bytes.cutLastByte?_append h]
    rfl

theorem Proper.parse_eq (hu : u.Proper) (huser : user = [] ∨ user.getLast? = some 64)
    (hbytes : ∀ b ∈ user, b ∉ utf8 "/?#") (hfragment : fragment = [] ∨ fragment.head? = some 35) :
    parse (u.scheme.name ++ schemeMark ++ user ++ u.hostHeader ++ u.target ++ fragment) =
      .ok u := by
  have hauthority : ∀ b ∈ user ++ u.hostHeader, ¬ EndsAuthority b := by
    intro b hb
    rcases List.mem_append.mp hb with hb | hb
    · rintro (rfl | rfl | rfl) <;> exact absurd (hbytes _ hb) (by decide)
    · exact hu.not_endsAuthority b hb
  have hrest : ∀ b ∈ (u.target ++ fragment).head?, EndsAuthority b := by
    rw [List.head?_append, hu.target]
    rintro b ⟨⟩
    exact .inr (.inl rfl)
  have hempty : withoutFragment fragment = [] := by
    rcases hfragment with rfl | hhead
    · rfl
    · obtain ⟨s, rfl⟩ := List.head?_eq_some_iff.mp hhead
      rfl
  have htarget : targetOf (withoutFragment (u.target ++ fragment)) = u.target := by
    rw [withoutFragment_append hu.hash_not_mem, hempty, List.append_nil,
      targetOf_of_head hu.target]
  have hendpoint := hu.endpoint_eq (withoutUser_append huser hu.at_not_mem)
  have happend := parse_append (Scheme.parse?_name u.scheme) hauthority hrest
  rw [hendpoint, htarget] at happend
  simp only [List.append_assoc] at happend ⊢
  exact happend

/-- An address is read back from the text that names it, also where somebody is named in front of
the host or a fragment follows. -/
theorem parse_rendering (hu : u.Proper) :
    parse u.render = .ok u ∧
      ∀ user fragment, (user = [] ∨ user.getLast? = some 64) → (∀ b ∈ user, b ∉ utf8 "/?#") →
        (fragment = [] ∨ fragment.head? = some 35) →
        parse (u.scheme.name ++ schemeMark ++ user ++ u.hostHeader ++ u.target ++ fragment) =
          .ok u := by
  have hplain := hu.parse_eq (.inl rfl) (by simp) (.inl rfl)
  rw [List.append_nil, List.append_nil] at hplain
  exact ⟨hplain, fun user fragment => hu.parse_eq⟩

def loopback : Url := ⟨.https, utf8 "::1", 8443, utf8 "/a@b/?q=[1]"⟩

theorem parse_rendering_loopback : loopback.Proper ∧
    parse (utf8 "https://[::1]:8443/a@b/?q=[1]") = .ok loopback ∧
    parse (utf8 "https://me:pw@home@[::1]:8443/a@b/?q=[1]#top?/") = .ok loopback := by
  have hproper : loopback.Proper :=
    ⟨by decide, by decide +kernel, by decide, by decide, by decide⟩
  obtain ⟨hplain, hparse⟩ := parse_rendering hproper
  have hrender : utf8 "https://[::1]:8443/a@b/?q=[1]" = loopback.render := by decide
  have hmore : utf8 "https://me:pw@home@[::1]:8443/a@b/?q=[1]#top?/" = loopback.scheme.name ++
      schemeMark ++ utf8 "me:pw@home@" ++ loopback.hostHeader ++ loopback.target ++
        utf8 "#top?/" := by decide
  rw [hrender, hmore]
  exact ⟨hproper, hplain, hparse _ _ (.inr (by decide)) (by decide +kernel) (.inr (by decide))⟩

def rooted (path : Bytes) : Bytes := if path.head? = some 47 then path else 47 :: path

theorem head_rooted (path : Bytes) : (rooted path).head? = some 47 := by
  rw [rooted]
  split
  · next h => exact h
  · rfl

theorem join_of_relative (base : Bytes) (h : isAbsolute path = false) :
    join base path = Bytes.dropRightWhile (· == 47) base ++ rooted path := by
  have hslash : utf8 "/" = [47] := by decide
  rw [join, if_neg (by simp [h]), rooted, hslash]
  split <;> simp

theorem beginsWith_append (h : before.toLower = text.toLower) (rest : Bytes) :
    beginsWith (before ++ rest) text = true := by
  have hlength : text.length = before.length := by
    have hlower := congrArg List.length h
    rwa [Bytes.toLower, Bytes.toLower, List.length_map, List.length_map, eq_comm] at hlower
  rw [beginsWith, hlength, List.take_left, Bytes.sameText, h, beq_self_eq_true]

theorem isAbsolute_append (h : Scheme.parse? before = some scheme) (rest : Bytes) :
    isAbsolute (before ++ (schemeMark ++ rest)) = true := by
  have hlower : (before ++ schemeMark).toLower = scheme.name ++ schemeMark := by
    rw [Bytes.toLower, List.map_append, ← Bytes.toLower, Scheme.toLower_of_parse? h]
    rfl
  rw [isAbsolute, ← List.append_assoc, Bool.or_eq_true]
  cases scheme with
  | http => exact .inl (beginsWith_append (hlower.trans (by decide)) rest)
  | https => exact .inr (beginsWith_append (hlower.trans (by decide)) rest)

theorem endpoint_nil : endpoint scheme [] = .error .missingHost := rfl

theorem join_append (hpath : isAbsolute path = false) (hne : authority ≠ [])
    (hauthority : ∀ b ∈ authority, ¬ EndsAuthority b) :
    join (before ++ (schemeMark ++ (authority ++ rest))) path =
      before ++ (schemeMark ++ (authority ++
        (Bytes.dropRightWhile (· == 47) rest ++ rooted path))) := by
  have hlast : ∀ b ∈ (before ++ (schemeMark ++ authority)).getLast?, (b == 47) = false := by
    rw [List.getLast?_append, List.getLast?_append, List.getLast?_eq_some_getLast hne,
      Option.some_or, Option.some_or, ← List.getLast?_eq_some_getLast hne]
    intro b hb
    rw [beq_eq_false_iff_ne]
    rintro rfl
    exact hauthority 47 (List.mem_of_mem_getLast? hb) (.inr (.inl rfl))
  have hdrop := Bytes.dropRightWhile_append (r := rest) hlast
  simp only [List.append_assoc] at hdrop
  rw [join_of_relative _ hpath, hdrop]
  simp only [List.append_assoc]

theorem target_join (hrest : ∀ b ∈ rest.head?, EndsAuthority b) (hquery : 63 ∉ rest)
    (hhash : 35 ∉ rest) (path : Bytes) :
    targetOf (withoutFragment (Bytes.dropRightWhile (· == 47) rest ++ rooted path)) =
      Bytes.dropRightWhile (· == 47) (targetOf (withoutFragment rest)) ++
        withoutFragment (rooted path) := by
  have hkept : 35 ∉ Bytes.dropRightWhile (· == 47) rest :=
    fun hmem => hhash (Bytes.mem_of_mem_dropRightWhile hmem)
  have hroot : (withoutFragment (rooted path)).head? = some 47 := by
    rw [withoutFragment, List.head?_takeWhile, head_rooted]
    rfl
  -- in a base without query and fragment, only a slash can end the authority
  have hslash : ∀ b ∈ rest.head?, b = 47 := by
    intro b hb
    rcases hrest b hb with rfl | rfl | rfl
    · exact absurd (List.mem_of_mem_head? hb) hhash
    · rfl
    · exact absurd (List.mem_of_mem_head? hb) hquery
  have hhead : (Bytes.dropRightWhile (· == 47) rest ++ withoutFragment (rooted path)).head? =
      some 47 := by
    cases hfirst :
        (Bytes.dropRightWhile (· == 47) rest ++ withoutFragment (rooted path)).head? with
    | none =>
      rw [List.head?_append, hroot] at hfirst
      simp at hfirst
    | some b =>
      rcases Bytes.head_dropRightWhile_append hfirst with hb | hb
      · rw [hslash b hb]
      · rw [← hroot]
        exact hb.symm
  rw [withoutFragment_append hkept, withoutFragment_of_not_mem hhash, targetOf_of_head hhead]
  cases rest with
  | nil => rfl
  | cons b s =>
    have hb : (b :: s).head? = some 47 := congrArg some (hslash b rfl)
    rw [targetOf_of_head hb]

/-- A path is joined to an address without leaving its server, whatever stands in the path; only a
path that is an address of its own stands alone, and whatever can be read as an address is one. -/
theorem join_stays (base path : Bytes) :
    (∀ u, parse base = .ok u → isAbsolute path = false → ∃ v, parse (join base path) = .ok v ∧
      v.scheme = u.scheme ∧ v.host = u.host ∧ v.port = u.port ∧
      (63 ∉ base → 35 ∉ base → v.target =
        Bytes.dropRightWhile (· == 47) u.target ++ withoutFragment (rooted path))) ∧
      (isAbsolute path = true → join base path = path) ∧
      ∀ u, parse path = .ok u → isAbsolute path = true := by
  refine ⟨fun u hu hpath => ?_, fun h => by rw [join, if_pos h], fun u hu => ?_⟩
  · obtain ⟨before, authority, rest, hscheme, hauthority, hrest, rfl, hendpoint, htarget⟩ :=
      exists_append_of_parse hu
    have hne : authority ≠ [] := by
      rintro rfl
      rw [endpoint_nil] at hendpoint
      cases hendpoint
    have hends : ∀ b ∈ (Bytes.dropRightWhile (· == 47) rest ++ rooted path).head?,
        EndsAuthority b := by
      intro b hb
      rcases Bytes.head_dropRightWhile_append hb with hb | hb
      · exact hrest b hb
      · rw [head_rooted] at hb
        exact .inr (.inl (Option.some.inj hb).symm)
    have hparse := parse_append hscheme hauthority hends
    rw [hendpoint] at hparse
    rw [join_append hpath hne hauthority]
    refine ⟨_, hparse, rfl, rfl, rfl, fun hquery hhash => ?_⟩
    rw [htarget]
    refine target_join hrest ?_ ?_ path
    · exact fun hmem => hquery (by simp [hmem])
    · exact fun hmem => hhash (by simp [hmem])
  · obtain ⟨before, authority, rest, hscheme, -, -, rfl, -, -⟩ := exists_append_of_parse hu
    exact isAbsolute_append hscheme _

theorem join_stays_hostile : ∃ v,
    parse (join (utf8 "http://me@shop:/api//") (utf8 "//evil@host:1?#x")) = .ok v ∧
      v.host = utf8 "shop" ∧ v.port = 80 ∧ v.target = utf8 "/api//evil@host:1?" := by
  have hbase : parse (utf8 "http://me@shop:/api//") =
      .ok ⟨.http, utf8 "shop", 80, utf8 "/api//"⟩ := by rfl
  obtain ⟨v, hv, -, hhost, hport, htarget⟩ :=
    (join_stays (utf8 "http://me@shop:/api//") (utf8 "//evil@host:1?#x")).1 _ hbase (by decide)
  refine ⟨v, hv, hhost, hport, ?_⟩
  rw [htarget (by decide) (by decide)]
  decide

end Url

end LoadGenerator.Http
