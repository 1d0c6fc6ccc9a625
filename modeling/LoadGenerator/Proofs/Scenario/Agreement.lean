import LoadGenerator.Scenario.Assert

namespace LoadGenerator

open Http

namespace BodyReader

variable {g : BodyReader} {path body : Bytes} {v : Json} {p : Pattern} {groups : List Bytes}

def Leads (g : BodyReader) (path body : Bytes) (v : Json) : Prop :=
  ∃ segments doc, Json.Path.parse path = .ok segments ∧ g.document? body = some doc ∧
    doc.resolve? segments = some v

def Matches (g : BodyReader) (p : Pattern) (body : Bytes) (groups : List Bytes) : Prop :=
  groups ≠ [] ∧ ∃ c, p.compiled = some c ∧ g.find c.1 c.2 body = .ok (some groups)

theorem Leads.unique {w : Json} (h : g.Leads path body v) (h' : g.Leads path body w) : v = w := by
  obtain ⟨segments, doc, hpath, hdoc, hv⟩ := h
  obtain ⟨segments', doc', hpath', hdoc', hw⟩ := h'
  obtain rfl := Except.ok.inj (hpath.symm.trans hpath')
  obtain rfl := Option.some.inj (hdoc.symm.trans hdoc')
  exact Option.some.inj (hv.symm.trans hw)

theorem searchBy_eq_ok_iff (hne : groups ≠ []) :
    p.searchBy g.find body = .ok groups ↔ g.Matches p body groups := by
  cases hp : p.compiled with
  | none => simp [Pattern.searchBy, Matches, hp]
  | some c =>
    cases hfind : g.find c.1 c.2 body with
    | error why => simp [Pattern.searchBy, Matches, hp, hfind]
    | ok found => cases found <;> simp [Pattern.searchBy, Matches, hp, hfind, hne, Ne.symm hne]

theorem Matches.unique {groups' : List Bytes} (h : g.Matches p body groups)
    (h' : g.Matches p body groups') : groups = groups' :=
  Except.ok.inj (((searchBy_eq_ok_iff h.1).mpr h).symm.trans ((searchBy_eq_ok_iff h'.1).mpr h'))

theorem searchBy_of_not_matches (h : ∀ groups, ¬g.Matches p body groups) :
    p.searchBy g.find body = .ok [] ∨ ∃ e, p.searchBy g.find body = .error e := by
  cases hs : p.searchBy g.find body with
  | error e => exact .inr ⟨e, rfl⟩
  | ok groups =>
    by_cases hne : groups = []
    · exact .inl (congrArg _ hne)
    · exact absurd ((searchBy_eq_ok_iff hne).mp hs) (h groups)

end BodyReader

open BodyReader

variable {g : BodyReader} {path body : Bytes} {v : Json} {p : Pattern} {groups : List Bytes}

namespace Assertion

theorem jsonAt_eq_ok_iff : jsonAt g path body = .ok v ↔ g.Leads path body v := by
  unfold jsonAt Leads
  cases hpath : Json.Path.parse path with
  | error e => simp
  | ok segments =>
    cases hdoc : g.document? body with
    | none => simp
    | some doc => cases hv : doc.resolve? segments <;> simp [hv]

theorem checkJson_eq_none_iff {expected : Option Bytes} :
    checkJson g path expected body = none ↔
      ∃ v, g.Leads path body v ∧ ∀ text ∈ expected, v.render = text := by
  unfold checkJson
  cases hv : jsonAt g path body with
  | error actual =>
    have hnot (v : Json) : ¬g.Leads path body v := fun h => by
      rw [jsonAt_eq_ok_iff.mpr h] at hv
      cases hv
    simp [hnot]
  | ok v =>
    have hleads := jsonAt_eq_ok_iff.mp hv
    have hunique (w : Json) : g.Leads path body w ↔ w = v :=
      ⟨fun h => h.unique hleads, fun h => h ▸ hleads⟩
    cases expected <;> simp [hunique]

end Assertion

namespace Extractor

theorem fromJson_eq_ok_iff {text : Bytes} :
    fromJson g path body = .ok text ↔ ∃ v, g.Leads path body v ∧ v.render = text := by
  unfold fromJson Leads
  cases hpath : Json.Path.parse path with
  | error e => simp
  | ok segments =>
    cases hdoc : g.document? body with
    | none => simp
    | some doc => cases hv : doc.resolve? segments <;> simp [hv]

end Extractor

theorem Assertion.checkPattern_eq_none_iff :
    checkPattern g p body = none ↔ ∃ groups, g.Matches p body groups := by
  unfold checkPattern
  by_cases h : ∃ groups, g.Matches p body groups
  · obtain ⟨groups, hgroups⟩ := h
    rw [(searchBy_eq_ok_iff hgroups.1).mpr hgroups]
    cases groups with
    | nil => exact absurd rfl hgroups.1
    | cons whole captured => exact iff_of_true rfl ⟨_, hgroups⟩
  · obtain hs | ⟨e, hs⟩ := searchBy_of_not_matches (not_exists.mp h)
    · rw [hs]
      exact iff_of_false nofun h
    · rw [hs]
      exact iff_of_false nofun h

/-- What is taken of a match where no group is asked for: the first, and all of it where there is
none. -/
def Extractor.usualGroup? (groups : List Bytes) : Option Bytes :=
  groups[if 1 < groups.length then 1 else 0]?

theorem Extractor.exists_usualGroup? (h : groups ≠ []) :
    ∃ text, usualGroup? groups = some text := by
  have hlength : (if 1 < groups.length then 1 else 0) < groups.length := by
    have := List.length_pos_iff.mpr h
    split <;> omega
  exact ⟨_, List.getElem?_eq_getElem hlength⟩

theorem Extractor.fromPattern_eq_ok_iff {text : Bytes} :
    fromPattern g p [] body = .ok text ↔
      ∃ groups, g.Matches p body groups ∧ usualGroup? groups = some text := by
  unfold fromPattern
  by_cases h : ∃ groups, g.Matches p body groups
  · obtain ⟨groups, hgroups⟩ := h
    obtain ⟨hne, c, hc, -⟩ := id hgroups
    obtain ⟨first, hfirst⟩ := exists_usualGroup? hne
    have hindex : (groupIndex? [] groups.length).bind (groups[·]?) = some first := hfirst
    have hone : (∃ groups, g.Matches p body groups ∧ usualGroup? groups = some text) ↔
        first = text := by
      refine ⟨fun ⟨others, hothers, htext⟩ => ?_, fun htext => ⟨groups, hgroups, htext ▸ hfirst⟩⟩
      obtain rfl := hgroups.unique hothers
      exact Option.some.inj (hfirst.symm.trans htext)
    rw [hone, hc, (searchBy_eq_ok_iff hne).mpr hgroups]
    cases groups with
    | nil => exact absurd rfl hne
    | cons whole captured =>
      rw [if_neg (by simp)]
      dsimp only
      rw [hindex]
      exact Iff.of_eq (Except.ok.injEq _ _)
  · have hnot : ¬∃ groups, g.Matches p body groups ∧ usualGroup? groups = some text :=
      fun ⟨groups, hgroups, _⟩ => h ⟨groups, hgroups⟩
    split
    · exact iff_of_false nofun hnot
    · obtain hs | ⟨e, hs⟩ := searchBy_of_not_matches (not_exists.mp h)
      · rw [hs]
        exact iff_of_false nofun hnot
      · rw [hs]
        exact iff_of_false nofun hnot

theorem Http.Headers.find?_congr {headers : Headers} {name name' : Bytes}
    (h : Bytes.sameText name name' = true) : headers.find? name = headers.find? name' := by
  have hlower : name.toLower = name'.toLower := eq_of_beq h
  unfold Headers.find? Bytes.sameText
  rw [hlower]

theorem Http.Headers.exists_find?_iff {headers : Headers} {name : Bytes} :
    (∃ text, headers.find? name = some text) ↔
      ∃ h ∈ headers, Bytes.sameText h.1 name = true := by
  unfold Headers.find?
  rw [← Option.isSome_iff_exists, Option.isSome_map, List.find?_isSome]

theorem Extractor.fromHeader_eq_ok_iff {headers : Headers} {name text : Bytes} :
    fromHeader name headers = .ok text ↔ headers.find? name = some text := by
  unfold fromHeader
  cases headers.find? name <;> simp

theorem Assertion.check_header_eq_none_iff {r : Response} {name : Bytes} {elapsedMs : Float} :
    checkBy g (.headerExists name) r elapsedMs = none ↔
      ∃ text, r.headers.find? name = some text := by
  rw [← Option.isSome_iff_exists]
  change (if (r.headers.find? name).isSome then none else some _) = none ↔ _
  split
  · next hsome => exact iff_of_true rfl hsome
  · next hsome => exact iff_of_false nofun hsome

namespace BodyReader

/-- Assertions pass where extractions of the same things succeed. -/
structure Guards (g : BodyReader) (r : Response) (elapsedMs : Float) : Prop where
  present : ∀ path, Assertion.checkBy g (.jsonPath path none) r elapsedMs = none ↔
    ∃ text, Extractor.applyBy g (.jsonPath path) r = .ok text
  expected : ∀ path text, Assertion.checkBy g (.jsonPath path (some text)) r elapsedMs = none ↔
    Extractor.applyBy g (.jsonPath path) r = .ok text
  pattern : ∀ p, Assertion.checkBy g (.bodyMatches p) r elapsedMs = none ↔
    ∃ text, Extractor.applyBy g (.regex p []) r = .ok text
  header : ∀ name name', Bytes.sameText name name' = true →
    (Assertion.checkBy g (.headerExists name) r elapsedMs = none ↔
      ∃ text, Extractor.applyBy g (.header name') r = .ok text)

structure Yields (g : BodyReader) (r : Response) : Prop where
  path : ∀ path text, Extractor.applyBy g (.jsonPath path) r = .ok text ↔
    ∃ v, g.Leads path r.body v ∧ v.render = text
  pattern : ∀ p text, Extractor.applyBy g (.regex p []) r = .ok text ↔
    ∃ groups, g.Matches p r.body groups ∧ Extractor.usualGroup? groups = some text
  header : ∀ name, (∃ text, Extractor.applyBy g (.header name) r = .ok text) ↔
    ∃ h ∈ r.headers, Bytes.sameText h.1 name = true

theorem yields (g : BodyReader) (r : Response) : g.Yields r where
  path _ _ := Extractor.fromJson_eq_ok_iff
  pattern _ _ := Extractor.fromPattern_eq_ok_iff
  header _ := (exists_congr fun _ => Extractor.fromHeader_eq_ok_iff).trans Headers.exists_find?_iff

/-- An assertion guards the extraction of the same path, pattern or header: it passes exactly where
the extraction succeeds, whatever reads the bodies, and that is where the value is there. -/
theorem guards_extractions (g : BodyReader) (r : Response) (elapsedMs : Float) :
    g.Guards r elapsedMs ∧ g.Yields r := by
  have hyields := g.yields r
  refine ⟨⟨fun path => ?_, fun path text => ?_, fun p => ?_, fun name name' hname => ?_⟩, hyields⟩
  · simp only [hyields.path]
    refine Assertion.checkJson_eq_none_iff.trans ⟨?_, ?_⟩
    · rintro ⟨v, hv, -⟩
      exact ⟨v.render, v, hv, rfl⟩
    · rintro ⟨-, v, hv, -⟩
      exact ⟨v, hv, nofun⟩
  · rw [hyields.path]
    exact Assertion.checkJson_eq_none_iff.trans (by simp)
  · simp only [hyields.pattern]
    refine Assertion.checkPattern_eq_none_iff.trans ⟨?_, ?_⟩
    · rintro ⟨groups, hgroups⟩
      obtain ⟨text, htext⟩ := Extractor.exists_usualGroup? hgroups.1
      exact ⟨text, groups, hgroups, htext⟩
    · rintro ⟨-, groups, hgroups, -⟩
      exact ⟨groups, hgroups⟩
  · rw [Assertion.check_header_eq_none_iff, Headers.find?_congr hname]
    exact exists_congr fun _ => Extractor.fromHeader_eq_ok_iff.symm

end BodyReader

end LoadGenerator
