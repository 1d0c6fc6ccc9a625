import LoadGenerator.Proofs.Plan.Reading

namespace LoadGenerator

variable {α : Type} [Scalar α]

namespace Json

/-- A value that stands at a path of a document; the path leads into every item of an array. -/
inductive StandsAt (v : Json) : List String → Json → Prop
  | here : StandsAt v [] v
  | member {key : String} {path : List String} {w u : Json} (hw : u.member? (utf8 key) = some w)
      (h : StandsAt v path w) : StandsAt v (key :: path) u
  | item {path : List String} {w : Json} {items : List Json} (hw : w ∈ items)
      (h : StandsAt v path w) : StandsAt v path (.array items)

variable {u v w : Json} {p q : List String} {key : String}

theorem StandsAt.trans (h : u.StandsAt p v) (hv : v.StandsAt q w) : u.StandsAt (q ++ p) w := by
  induction hv with
  | here => exact h
  | member hw _ ih => exact .member hw ih
  | item hw _ ih => exact .item hw ih

theorem standsAt_of_member? (h : v.member? (utf8 key) = some w) : w.StandsAt [key] v :=
  .member h .here

theorem standsAt_of_item {items : List Json} (h : v.member? (utf8 key) = some (.array items))
    (hw : w ∈ items) : w.StandsAt [key] v :=
  .member h (.item hw .here)

end Json

namespace PlanReader

variable {v : Json} {field : Bytes} {key : String}

theorem standsAt_present? {w : Json} (h : present? v key = some w) : w.StandsAt [key] v :=
  Json.standsAt_of_member? (Option.eq_some_of_filter_eq_some h)

theorem standsAt_items (v : Json) (field : Bytes) (key : String) :
    Ensures (items v field key) fun is => ∀ w ∈ is, w.StandsAt [key] v := by
  unfold items
  split
  · exact ensures_ok nofun
  · next is his => exact ensures_ok fun w hw => Json.standsAt_of_item his hw
  · exact ensures_fail _ _

section

variable {P : α → Prop}

theorem ensures_duration (h : Ensures (Duration.ofJson v) P) : Ensures (duration v field) P :=
  h.mapError _

theorem ensures_duration? (h : ∀ d, d.StandsAt [key] v → Ensures (Duration.ofJson d) P) :
    Ensures (duration? v field key) fun x? => ∀ x ∈ x?, P x := by
  unfold duration?
  split
  · exact ensures_ok nofun
  · next d hd =>
    refine ((ensures_duration (h d (Json.standsAt_of_member? hd))).mono fun x hx => ?_).map
    rintro _ ⟨⟩
    exact hx

theorem ensures_requiredDuration (h : ∀ d, d.StandsAt [key] v → Ensures (Duration.ofJson d) P) :
    Ensures (requiredDuration v field key) P := by
  unfold requiredDuration
  refine (ensures_duration? h).bind fun x? hx => ?_
  split
  · exact ensures_ok (hx _ rfl)
  · exact ensures_fail _ _

end

theorem ensures_thinkTime {P : ThinkTime → Prop}
    (hbetween : ∀ low high : α, requiredDuration v field "min" = .ok low →
      requiredDuration v field "max" = .ok high → ¬high < low →
        P (.between (Duration.toMillis low) (Duration.toMillis high)))
    (hfixed : ∀ pause : α, duration v field = .ok pause → P (.fixed (Duration.toMillis pause))) :
    Ensures (thinkTime α field v) P := by
  unfold thinkTime
  split
  · refine (ensures_eq _).bind fun low hlow => (ensures_eq _).bind fun high hhigh => ?_
    split
    · exact ensures_fail _ _
    · next hle => exact ensures_ok (hbetween low high hlow hhigh hle)
  · exact (ensures_eq _).bind fun pause hpause => ensures_ok (hfixed pause hpause)

theorem ensures_statusCode {P : Assertion → Prop}
    (h : ∀ code : α, ¬(code < Scalar.ofInt 100 ∨ Scalar.ofInt 599 < code) →
      P (.statusCode (Scalar.truncate code).toNat)) : Ensures (statusCode α v field) P := by
  unfold statusCode
  refine ensures_bind fun code => ?_
  split
  · exact ensures_fail _ _
  · next hcode => exact ensures_ok (h code hcode)

theorem ensures_assertion {P : Assertion → Prop} (hstatus : Ensures (statusCode α v field) P)
    (htime : ∀ max : α, requiredDuration v field "max" = .ok max →
      P (.responseTime (Duration.toMillis max)))
    (hpattern : ∀ p, pattern v field = .ok p → P (.bodyMatches p))
    (hcontains : ∀ text, P (.bodyContains text)) (hpath : ∀ path value, P (.jsonPath path value))
    (hheader : ∀ name, P (.headerExists name)) : Ensures (assertion α field v) P := by
  unfold assertion
  refine ensures_bind fun _ => ensures_bind fun type? => ?_
  split
  · split
    · exact hstatus
    split
    · exact ensures_map hcontains
    split
    · exact (ensures_eq _).bind fun max hmax => ensures_ok (htime max hmax)
    split
    · exact ensures_bind fun path => ensures_bind fun value => ensures_ok (hpath path value)
    split
    · exact Ensures.map hpattern
    split
    · exact ensures_map hheader
    · exact ensures_error _
  · exact ensures_fail _ _

theorem ensures_step {E : Extraction → Prop} {A : Assertion → Prop} {T : ThinkTime → Prop}
    (hextraction : ∀ field w, w.StandsAt ["extract"] v → Ensures (extraction field w) E)
    (hassertion : ∀ field w, w.StandsAt ["assertions"] v → Ensures (assertion α field w) A)
    (hthinkTime : ∀ field w, w.StandsAt ["thinkTime"] v → Ensures (thinkTime α field w) T) :
    Ensures (step α field v) fun s =>
      (∀ e ∈ s.extractions, E e) ∧ (∀ a ∈ s.assertions, A a) ∧ ∀ t ∈ s.thinkTime, T t := by
  unfold step
  refine ensures_bind fun _ => ensures_bind fun name => ?_
  dsimp only
  split
  · refine ensures_bind fun request => ?_
    refine (standsAt_items v field "extract").bind fun extract hextract => ?_
    refine (ensures_each _ extract fun field w hw =>
      hextraction field w (hextract w hw)).bind fun extractions hextractions => ?_
    refine (standsAt_items v field "assertions").bind fun asserted hasserted => ?_
    refine (ensures_each _ asserted fun field w hw =>
      hassertion field w (hasserted w hw)).bind fun assertions hassertions => ?_
    split
    · exact ensures_ok ⟨hextractions.2, hassertions.2, nofun⟩
    · next w hw =>
      refine Ensures.bind (Q := fun t? => ∀ t ∈ t?, T t) ?_ fun t? ht =>
        ensures_ok ⟨hextractions.2, hassertions.2, ht⟩
      refine ((hthinkTime _ w (standsAt_present? hw)).mono fun t ht => ?_).map
      rintro _ ⟨⟩
      exact ht
  · exact ensures_fail _ _

theorem ensures_steps {S : Step → Prop}
    (h : ∀ field w, w.StandsAt ["steps"] v → Ensures (step α field w) S) :
    Ensures (steps α field v) fun ss => ss ≠ [] ∧ ∀ s ∈ ss, S s := by
  unfold steps
  split
  · next first rest hsteps =>
    refine (ensures_each _ _ fun field w hw =>
      h field w (Json.standsAt_of_item hsteps hw)).mono fun ss hss => ⟨?_, hss.2⟩
    rintro rfl
    cases hss.1
  · exact ensures_fail _ _

structure Passes (g : GuardConfig α) : Prop where
  pos : ¬(g.warning ≤ Scalar.zero ∨ g.critical ≤ Scalar.zero)
  order : ¬g.critical < g.warning
  interval : 0 < g.intervalMs

theorem ensures_checkGuard (g : GuardConfig α) :
    Ensures (checkGuard g) fun g' => g' = g ∧ Passes g := by
  unfold checkGuard
  split
  · exact ensures_fail _ _
  · next hpos =>
    split
    · exact ensures_fail _ _
    · next horder =>
      split
      · exact ensures_fail _ _
      · next hinterval => exact ensures_ok ⟨rfl, hpos, horder, Int.not_le.mp hinterval⟩

theorem ensures_guard {N : α → Prop} {M : Int → Prop} (hwarning : N GuardConfig.usual.warning)
    (hcritical : N GuardConfig.usual.critical)
    (hinterval : M (GuardConfig.usual : GuardConfig α).intervalMs)
    (hnumber : ∀ key, Ensures (number? v (utf8 "memoryGuard") key) fun n? => ∀ n ∈ n?, N n)
    (hduration : Ensures (duration? v (utf8 "memoryGuard") "interval" : Read (Option α)) fun x? =>
      ∀ x ∈ x?, M (Duration.toMillis x)) :
    Ensures (guard v : Read (GuardConfig α)) fun g =>
      Passes g ∧ N g.warning ∧ N g.critical ∧ M g.intervalMs := by
  unfold guard
  refine ensures_bind fun _ => (hnumber _).bind fun warning hw => ?_
  refine (hnumber _).bind fun critical hc => hduration.bind fun interval hi => ?_
  refine ensures_bind fun _ => (ensures_checkGuard _).mono ?_
  rintro _ ⟨rfl, hpass⟩
  refine ⟨hpass, ?_, ?_, ?_⟩
  · cases warning with
    | none => exact hwarning
    | some n => exact hw n rfl
  · cases critical with
    | none => exact hcritical
    | some n => exact hc n rfl
  · cases interval with
    | none => exact hinterval
    | some x => exact hi x rfl

structure Settles (v : Json) (p q : Plan α) : Prop where
  workers : workers (α := α) v (utf8 "config") p.workers = .ok q.workers
  duration : ∃ x?, duration? v (utf8 "config") "duration" = .ok x? ∧
    q.duration = x?.getD p.duration
  timeout : ∃ x? : Option α, duration? v (utf8 "config") "timeout" = .ok x? ∧
    q.timeoutMs = (x?.map Duration.toMillis).getD p.timeoutMs
  sampling : sampling (α := α) v (utf8 "config") p.sampling = .ok q.sampling

theorem ensures_settings (v : Json) (p : Plan α) : Ensures (settings v p) (Settles v p) := by
  unfold settings
  refine ensures_bind fun _ => ensures_bind fun _ => (ensures_eq _).bind fun workers hworkers => ?_
  refine (ensures_eq _).bind fun duration hduration => ?_
  refine (ensures_eq _).bind fun timeout htimeout => ?_
  refine (ensures_eq _).bind fun sampling hsampling => ensures_bind fun _ => ?_
  exact ensures_ok ⟨hworkers, ⟨duration, hduration, rfl⟩, ⟨timeout, htimeout, rfl⟩, hsampling⟩

end PlanReader

namespace Selector

theorem ensures_entries (scenarios : List (Scenario α)) :
    PlanReader.Ensures (entries (scenarios.map some)) fun xs =>
      xs = scenarios ∧ ∀ x ∈ scenarios, isWeight x.weight = true := by
  induction scenarios with
  | nil => exact PlanReader.ensures_ok ⟨rfl, nofun⟩
  | cons s rest ih =>
    rw [List.map_cons, entries]
    split
    · next hw =>
      refine PlanReader.Ensures.map (ih.mono fun xs hxs => ⟨?_, ?_⟩)
      · rw [hxs.1]
      · exact List.forall_mem_cons.mpr ⟨hw, hxs.2⟩
    · exact PlanReader.ensures_error _

theorem ensures_ofList (scenarios : List (Scenario α)) :
    PlanReader.Ensures (ofList (scenarios.map some)) fun s => s.scenarios = scenarios ∧
      s.cumulative = sums Scalar.zero (scenarios.map (·.weight)) ∧
        ∀ x ∈ scenarios, isWeight x.weight = true := by
  unfold ofList
  refine (ensures_entries scenarios).bind fun xs hxs => ?_
  obtain ⟨rfl, hweights⟩ := hxs
  split
  · exact PlanReader.ensures_error _
  · exact PlanReader.ensures_ok ⟨rfl, rfl, hweights⟩

end Selector

namespace PlanLoader

open PlanReader (itemPath)

variable {fs : Files} {folder field : Bytes} {v : Json}

theorem ensures_scenario {S : List Step → Prop}
    (h : PlanReader.Ensures (PlanReader.steps α field v) S) :
    Ensures (scenario fs folder field v) fun x : Scenario α => S x.steps := by
  unfold scenario
  refine ensures_bind fun _ => ensures_bind fun name => ensures_bind fun weight => ?_
  refine (ensures_ofRead h).bind fun steps hsteps => ensures_bind fun file => ?_
  split
  · exact ensures_bind fun table => ensures_pure hsteps
  · exact ensures_bind fun _ => ensures_bind fun table => ensures_pure hsteps

theorem ensures_selector {X : Scenario α → Prop} {T : Selector α → Prop}
    (hscenario : ∀ field w, w.StandsAt ["scenarios"] v →
      Ensures (scenario fs folder field w) X)
    (hselector : ∀ scenarios : List (Scenario α), (∀ x ∈ scenarios, X x) →
      PlanReader.Ensures (Selector.ofList (scenarios.map some)) T) :
    Ensures (selector fs folder v) fun s? => ∀ s ∈ s?, T s := by
  unfold selector
  refine (ensures_ofRead (P := fun is => ∀ w ∈ is, w.StandsAt ["scenarios"] v) ?_).bind
    fun items hitems => ?_
  · split
    · exact PlanReader.ensures_ok nofun
    · next is his => exact PlanReader.ensures_ok fun w hw => Json.standsAt_of_item his hw
    · exact PlanReader.ensures_fail _ _
  have hitem (item : Json × Nat) (h : item ∈ items.zipIdx) :
      Ensures (scenario fs folder (itemPath (utf8 "scenarios") item.2) item.1) X :=
    hscenario _ _ (hitems _ (List.fst_mem_of_mem_zipIdx h))
  refine (ensures_mapM items.zipIdx hitem).bind fun scenarios hscenarios => ?_
  split
  · exact ensures_pure nofun
  · refine (ensures_ofRead (hselector scenarios hscenarios)).bind fun s hs => ensures_pure ?_
    rintro _ ⟨⟩
    exact hs

/-- The sections that a plan is put together from, each with what is known of it. -/
structure Gathers (S : Plan α → Prop) (L : LoadModel α → Prop) (G : GuardConfig α → Prop)
    (T : Option (Selector α) → Prop) (q : Plan α) : Prop where
  settings : ∃ p, S p ∧
    q = { p with load := q.load, guard := q.guard, request := q.request, selector := q.selector }
  load : L q.load
  guard : G q.guard
  selector : T q.selector
  work : (q.request.isNone && q.selector.isNone) = false
  baseUrl : q.baseUrl ≠ []

theorem ensures_ofJson {S : Plan α → Prop} {L : LoadModel α → Prop} {G : GuardConfig α → Prop}
    {T : Option (Selector α) → Prop}
    (hsettings : Ensures (section? v "config" .usual (PlanReader.settings · .usual)) S)
    (hload : ∀ m : LoadModel α, PlanReader.Ensures m.validate fun _ => L m)
    (hguard : Ensures (section? v "memoryGuard" .usual PlanReader.guard) G)
    (hselector : Ensures (selector fs folder v) T) :
    Ensures (ofJson fs folder v) fun l : LoadedPlan α => Gathers S L G T l.plan := by
  unfold ofJson
  dsimp only
  split
  · exact ensures_throw_bind _ _
  refine hsettings.bind fun p hp => ensures_bind fun load => ?_
  refine (ensures_ofRead (hload load)).bind fun warnings hload => ?_
  refine hguard.bind fun guard hguard => ?_
  split
  all_goals
    refine ensures_bind fun request => ?_
    refine hselector.bind fun selector hselector => ?_
    split
    · exact ensures_throw_bind _ _
    next hwork =>
    split
    · exact ensures_throw_bind _ _
    next hbase =>
    exact ensures_pure ⟨⟨p, hp, rfl⟩, hload, hguard, hselector, Bool.eq_false_iff.mpr hwork,
      mt List.isEmpty_iff.mpr hbase⟩

end PlanLoader

end LoadGenerator
