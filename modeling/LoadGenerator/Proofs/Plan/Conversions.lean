import LoadGenerator.Proofs.Number.Whole
import LoadGenerator.Proofs.Plan.Durations
import LoadGenerator.Proofs.Plan.Parts
import LoadGenerator.Run.Machine

namespace LoadGenerator

namespace Duration

open PlanReader

theorem normal_thousand : Binary64.Normal (Scalar.ofInt 1000 : Double).value.toModel.unpack :=
  ⟨_, _, ⟨by decide, by decide, by decide, .inr (by decide)⟩, by decide, rfl⟩

theorem normal_billion :
    Binary64.Normal (Scalar.ofInt 1000000000 : Double).value.toModel.unpack :=
  ⟨_, _, ⟨by decide, by decide, by decide, .inr (by decide)⟩, by decide, rfl⟩

theorem not_negative_ofJson (v : Json) :
    Ensures (ofJson v : Except Failure Double) fun x => ¬x < Scalar.zero := by
  unfold ofJson
  split
  · next text =>
    intro x hx
    obtain ⟨l, unit, h⟩ := written_of_parse hx
    exact (outcome_of_parse hx h).2
  · split
    · exact ensures_error _
    · split
      · next hx =>
        refine ensures_ok ?_
        rw [Double.lt_zero_iff]
        exact ((Double.isNonnegative_iff _).mp hx).2
      · exact ensures_error _

/-- Seconds that stand at a path of the document. -/
def GivenAt (path : List String) (doc : Json) (x : Double) : Prop :=
  ∃ v : Json, v.StandsAt path doc ∧ ofJson v = .ok x

/-- Milliseconds of such seconds: rounded, or the least number there is where they reach
`2 ^ 63`. -/
def MillisAt (path : List String) (doc : Json) (ms : Int) : Prop :=
  ∃ x, GivenAt path doc x ∧ Double.InWord (fun q => ⌊q + 1 / 2⌋) (x * Scalar.ofInt 1000) ms

variable {v doc : Json} {x : Double} {ms : Int} {p q : List String}

theorem GivenAt.within (h : GivenAt p v x) (hv : v.StandsAt q doc) : GivenAt (q ++ p) doc x := by
  obtain ⟨u, hu, hx⟩ := h
  exact ⟨u, hu.trans hv, hx⟩

theorem MillisAt.within (h : MillisAt p v ms) (hv : v.StandsAt q doc) :
    MillisAt (q ++ p) doc ms := by
  obtain ⟨x, hx, hms⟩ := h
  exact ⟨x, hx.within hv, hms⟩

theorem GivenAt.not_negative (h : GivenAt p doc x) : ¬x < Scalar.zero := by
  obtain ⟨v, -, hx⟩ := h
  exact not_negative_ofJson v x hx

theorem GivenAt.toMillis (h : GivenAt p doc x) : MillisAt p doc (toMillis x) :=
  ⟨x, h, Double.inWord_round (Double.not_negative_mul h.not_negative normal_thousand)⟩

/-- The milliseconds of two durations are in the order of their seconds, unless the greater does not
fit in 64 bits and the smaller does. -/
theorem toMillis_le_iff {y : Double} (hx : ¬x < Scalar.zero) (hy : ¬y < Scalar.zero)
    (hyx : ¬y < x) : Duration.toMillis x ≤ Duration.toMillis y ↔
      (x * Scalar.ofInt 1000 < Scalar.ofInt Word.half →
        y * Scalar.ofInt 1000 < Scalar.ofInt Word.half) :=
  Double.round_mul_le_iff normal_thousand hx hy hyx

theorem toMillis_le_or {y : Double} (hx : ¬x < Scalar.zero) (hy : ¬y < Scalar.zero)
    (hyx : ¬y < x) : Duration.toMillis x ≤ Duration.toMillis y ∨
      0 ≤ Duration.toMillis x ∧ Duration.toMillis y = -(Word.half : Int) := by
  refine or_iff_not_imp_left.mpr fun h => ?_
  rw [toMillis_le_iff hx hy hyx, Classical.not_imp] at h
  obtain ⟨hxlt, hylt⟩ := h
  obtain ⟨-, -, hnonneg, -⟩ | ⟨hnot, -⟩ :=
    Double.inWord_round (Double.not_negative_mul hx normal_thousand)
  · obtain ⟨hlt, -⟩ | ⟨-, hy⟩ := Double.inWord_round (Double.not_negative_mul hy normal_thousand)
    · exact absurd hlt hylt
    · exact ⟨hnonneg, hy⟩
  · exact absurd hxlt hnot

theorem inWord_toNanos (h : ¬x < Scalar.zero) :
    Double.InWord Int.floor (x * Scalar.ofInt 1000000000) (toNanos x) :=
  Double.inWord_truncate (Double.not_negative_mul h normal_billion)

end Duration

/-- The bounds of a pause are in order, but for an upper one that does not fit in 64 bits. -/
def ThinkTime.KeepsOrder : ThinkTime → Prop
  | .fixed _ => True
  | .between low high => low ≤ high ∨ 0 ≤ low ∧ high = -(Word.half : Int)

def ThinkTime.Converted (doc : Json) : ThinkTime → Prop
  | .fixed ms => Duration.MillisAt [] doc ms
  | .between low high => Duration.MillisAt ["min"] doc low ∧ Duration.MillisAt ["max"] doc high ∧
    (ThinkTime.between low high).KeepsOrder

theorem ThinkTime.Converted.keepsOrder {doc : Json} {t : ThinkTime} (h : t.Converted doc) :
    t.KeepsOrder := by
  cases t with
  | fixed ms => trivial
  | between low high => exact h.2.2

structure Step.Converted (doc : Json) (s : Step) : Prop where
  thinkTime : ∀ t ∈ s.thinkTime, ∃ v, v.StandsAt ["thinkTime"] doc ∧ t.Converted v
  limits : ∀ ms, .responseTime ms ∈ s.assertions →
    Duration.MillisAt ["assertions", "max"] doc ms

namespace PlanReader

open Duration (GivenAt MillisAt)

theorem given_ofJson {d v : Json} {path : List String} (hd : d.StandsAt path v) :
    Ensures (Duration.ofJson d) (GivenAt path v) := fun _ hx => ⟨d, hd, hx⟩

theorem converted_thinkTime (field : Bytes) (v : Json) :
    Ensures (thinkTime Double field v) (ThinkTime.Converted v) := by
  refine ensures_thinkTime (fun low high hlow hhigh horder => ?_) fun pause hpause => ?_
  · have hmin := ensures_requiredDuration (fun d => given_ofJson) low hlow
    have hmax := ensures_requiredDuration (fun d => given_ofJson) high hhigh
    exact ⟨hmin.toMillis, hmax.toMillis,
      Duration.toMillis_le_or hmin.not_negative hmax.not_negative horder⟩
  · exact (ensures_duration (given_ofJson .here) pause hpause).toMillis

theorem millis_assertion (field : Bytes) (v : Json) :
    Ensures (assertion Double field v) fun a =>
      ∀ ms, a = .responseTime ms → MillisAt ["max"] v ms := by
  refine ensures_assertion (ensures_statusCode nofun) (fun max hmax => ?_) nofun nofun nofun nofun
  rintro _ ⟨⟩
  exact (ensures_requiredDuration (fun d => given_ofJson) max hmax).toMillis

theorem converted_step (field : Bytes) (v : Json) :
    Ensures (step Double field v) (Step.Converted v) := by
  have hassertion (field : Bytes) (w : Json) (hw : w.StandsAt ["assertions"] v) :
      Ensures (assertion Double field w) fun a =>
        ∀ ms, a = .responseTime ms → MillisAt ["assertions", "max"] v ms :=
    (millis_assertion field w).mono fun a ha ms hms => (ha ms hms).within hw
  have hthinkTime (field : Bytes) (w : Json) (hw : w.StandsAt ["thinkTime"] v) :
      Ensures (thinkTime Double field w) fun t =>
        ∃ w, w.StandsAt ["thinkTime"] v ∧ t.Converted w :=
    (converted_thinkTime field w).mono fun t ht => ⟨w, hw, ht⟩
  refine (ensures_step (fun _ _ _ => ensures_true _) hassertion hthinkTime).mono fun s hs => ?_
  obtain ⟨-, hassertions, hpauses⟩ := hs
  exact ⟨hpauses, fun ms hms => hassertions _ hms ms rfl⟩

theorem converted_steps (field : Bytes) (v : Json) :
    Ensures (steps Double field v) fun ss =>
      ∀ s ∈ ss, ∃ w, w.StandsAt ["steps"] v ∧ s.Converted w :=
  (ensures_steps fun field w hw => (converted_step field w).mono fun _ hs =>
    ⟨w, hw, hs⟩).mono fun _ hss => hss.2

theorem converted_settings (v : Json) (p : Plan Double) :
    Ensures (settings v p) fun q => (q.duration = p.duration ∨ GivenAt ["duration"] v q.duration) ∧
      (q.timeoutMs = p.timeoutMs ∨ MillisAt ["timeout"] v q.timeoutMs) := by
  refine (ensures_settings v p).mono fun q hq => ?_
  obtain ⟨-, ⟨duration, hduration, hq⟩, ⟨timeout, htimeout, hq'⟩, -⟩ := hq
  rw [hq, hq']
  constructor
  · cases duration with
    | none => exact .inl rfl
    | some x => exact .inr (ensures_duration? (fun d => given_ofJson) _ hduration x rfl)
  · cases timeout with
    | none => exact .inl rfl
    | some x => exact .inr (ensures_duration? (fun d => given_ofJson) _ htimeout x rfl).toMillis

theorem converted_guard (v : Json) :
    Ensures (guard v : Read (GuardConfig Double)) fun g => 0 < g.intervalMs ∧
      (g.intervalMs = (GuardConfig.usual : GuardConfig Double).intervalMs ∨
        MillisAt ["interval"] v g.intervalMs) := by
  have hinterval : Ensures (duration? v (utf8 "memoryGuard") "interval" : Read (Option Double))
      fun x? => ∀ x ∈ x?, GivenAt ["interval"] v x := ensures_duration? fun d => given_ofJson
  have hguard := ensures_guard (v := v) (N := fun _ : Double => True)
    (M := fun ms => ms = 5000 ∨ MillisAt ["interval"] v ms) trivial trivial (.inl rfl)
    (fun _ _ _ _ _ => trivial) fun x? hx? x hx => .inr (hinterval x? hx? x hx).toMillis
  exact hguard.mono fun g hg => ⟨hg.1.interval, hg.2.2.2⟩

end PlanReader

theorem Clock.word_eq_iff {n : Int} (h : -(Word.half : Int) ≤ n) :
    word n = n ↔ n < Word.half := by
  have hcount : Word.count = 2 * Word.half := by decide
  rw [word, hcount]
  refine ⟨fun hn => ?_, fun hlt => Int.bmod_eq_of_le (by omega) (by omega)⟩
  have := Int.bmod_lt (x := n) (m := 2 * Word.half) (by decide)
  omega

/-- A run of the plan that begins at `start` ends after the whole nanoseconds of its duration, and
in the past where they do not fit. The sum of the two is what a word of 64 bits holds of it as long
as it is below `2 ^ 63`. -/
def Plan.Ends (p : Plan Double) : Prop :=
  ∀ (setting : Run.Setting Double) (start : Int), ∃ ns,
    Double.InWord Int.floor (p.duration * Scalar.ofInt 1000000000) ns ∧
      (Run.Course.ofPlan setting p start).deadline = start + ns ∧
      (0 ≤ start → (Clock.word (start + ns) = start + ns ↔ start + ns < Word.half))

structure Plan.Converted (doc : Json) (p : Plan Double) : Prop where
  duration : p.duration = Scalar.ofInt 60 ∨
    Duration.GivenAt ["config", "duration"] doc p.duration
  deadline : p.Ends
  timeout : p.timeoutMs = 30000 ∨ Duration.MillisAt ["config", "timeout"] doc p.timeoutMs
  interval : p.guard.intervalMs = 5000 ∨
    Duration.MillisAt ["memoryGuard", "interval"] doc p.guard.intervalMs
  intervalFits : 0 < p.guard.intervalMs ∧ p.guard.intervalMs < Word.half
  steps : ∀ x ∈ p.scenarios, ∀ s ∈ x.steps,
    ∃ v, v.StandsAt ["scenarios", "steps"] doc ∧ s.Converted v

def Plan.KeepsOrder (p : Plan Double) : Prop :=
  ∀ x ∈ p.scenarios, ∀ s ∈ x.steps, ∀ t ∈ s.thinkTime, t.KeepsOrder

theorem Plan.Converted.keepsOrder {doc : Json} {p : Plan Double} (h : p.Converted doc) :
    p.KeepsOrder := by
  intro x hx s hs t ht
  obtain ⟨v, -, hv⟩ := h.steps x hx s hs
  obtain ⟨w, -, hw⟩ := hv.thinkTime t ht
  exact hw.keepsOrder

theorem Duration.MillisAt.lt_half {path : List String} {doc : Json} {ms : Int}
    (h : MillisAt path doc ms) (hpos : 0 < ms) : ms < Word.half := by
  obtain ⟨x, -, ⟨-, -, -, hlt⟩ | ⟨-, rfl⟩⟩ := h
  · exact hlt
  · exact absurd hpos (by decide)

theorem Plan.ends_of_not_negative {p : Plan Double} (h : ¬p.duration < Scalar.zero) : p.Ends := by
  intro setting start
  have hns := Duration.inWord_toNanos h
  refine ⟨_, hns, rfl, fun hstart => Clock.word_eq_iff ?_⟩
  obtain ⟨-, -, hnonneg, -⟩ | ⟨-, heq⟩ := hns <;> omega

namespace PlanLoader

open PlanReader
open Duration (GivenAt MillisAt)

theorem converted_scenario (fs : Files) (folder field : Bytes) (v : Json) :
    Ensures (scenario fs folder field v) fun x : Scenario Double =>
      ∀ s ∈ x.steps, ∃ w, w.StandsAt ["steps"] v ∧ s.Converted w :=
  ensures_scenario (converted_steps field v)

theorem converted_selector (fs : Files) (folder : Bytes) (v : Json) :
    Ensures (selector fs folder v) fun s? : Option (Selector Double) =>
      ∀ sel ∈ s?, ∀ x ∈ sel.scenarios, ∀ s ∈ x.steps,
        ∃ w, w.StandsAt ["scenarios", "steps"] v ∧ s.Converted w := by
  have hscenario (field : Bytes) (u : Json) (hu : u.StandsAt ["scenarios"] v) :
      Ensures (scenario fs folder field u) fun x : Scenario Double =>
        ∀ s ∈ x.steps, ∃ w, w.StandsAt ["scenarios", "steps"] v ∧ s.Converted w :=
    (converted_scenario fs folder field u).mono fun x hx s hs => by
      obtain ⟨w, hw, hconverted⟩ := hx s hs
      exact ⟨w, hw.trans hu, hconverted⟩
  refine ensures_selector hscenario fun scenarios hs => ?_
  exact (Selector.ensures_ofList scenarios).mono fun sel hsel => hsel.1 ▸ hs

theorem converted_ofJson (fs : Files) (folder : Bytes) (doc : Json) :
    Ensures (ofJson fs folder doc) fun l : LoadedPlan Double => l.plan.Converted doc := by
  have hsettings : Ensures (section? doc "config" .usual (PlanReader.settings · .usual))
      fun p : Plan Double =>
        (p.duration = Scalar.ofInt 60 ∨ GivenAt ["config", "duration"] doc p.duration) ∧
        (p.timeoutMs = 30000 ∨ MillisAt ["config", "timeout"] doc p.timeoutMs) := by
    refine ensures_section ⟨.inl rfl, .inl rfl⟩ fun c hc => ?_
    have hc := Json.standsAt_of_member? hc
    exact (converted_settings c .usual).mono fun p hp =>
      ⟨hp.1.imp_right (·.within hc), hp.2.imp_right (·.within hc)⟩
  have hguard : Ensures (section? doc "memoryGuard" .usual PlanReader.guard)
      fun g : GuardConfig Double => 0 < g.intervalMs ∧
        (g.intervalMs = 5000 ∨ MillisAt ["memoryGuard", "interval"] doc g.intervalMs) := by
    refine ensures_section ⟨by decide, .inl rfl⟩ fun c hc => ?_
    have hc := Json.standsAt_of_member? hc
    exact (converted_guard c).mono fun g hg => ⟨hg.1, hg.2.imp_right (·.within hc)⟩
  refine (ensures_ofJson hsettings (fun m => PlanReader.ensures_true m.validate) hguard
    (converted_selector fs folder doc)).mono fun l hl => ?_
  obtain ⟨p, ⟨hduration, htimeout⟩, hplan⟩ := hl.settings
  have hd : l.plan.duration = p.duration := by rw [hplan]
  have ht : l.plan.timeoutMs = p.timeoutMs := by rw [hplan]
  have hnonnegative : ¬l.plan.duration < Scalar.zero := by
    rw [hd]
    obtain husual | hgiven := hduration
    · rw [husual]
      decide
    · exact hgiven.not_negative
  constructor
  case duration => rwa [hd]
  case deadline => exact Plan.ends_of_not_negative hnonnegative
  case timeout => rwa [ht]
  case interval => exact hl.guard.2
  case intervalFits =>
    refine ⟨hl.guard.1, ?_⟩
    obtain husual | hgiven := hl.guard.2
    · rw [husual]
      decide
    · exact hgiven.lt_half hl.guard.1
  case steps =>
    unfold Plan.scenarios
    cases hs : l.plan.selector with
    | none => exact nofun
    | some sel => exact hl.selector sel hs

/-- Every whole number that a plan has from a duration is that of the seconds at its place in the
document, and not below zero where it fits in 64 bits; where it does not, it is the least number of
all. Only the interval of the guard is checked afterwards. -/
theorem converted_of_loaded {fs : Files} {folder : Bytes} {doc : Json} {l : LoadedPlan Double}
    {notices : List Notice} (h : run (ofJson fs folder doc) = (.ok l, notices)) :
    l.plan.Converted doc :=
  converted_ofJson fs folder doc l [] notices h

def timed (seconds : Int) : Json :=
  .ofMembers
    [(utf8 "config", .ofMembers [(utf8 "baseUrl", .string (utf8 "http://shop")),
        (utf8 "duration", .int seconds), (utf8 "timeout", .int seconds)]),
      (utf8 "request", .ofMembers [(utf8 "path", .string (utf8 "/"))])]

theorem converted_of_loaded_hour : ∃ (l : LoadedPlan Double) (notices : List Notice),
    run (ofJson .empty (utf8 ".") (timed 3600)) = (.ok l, notices) ∧
      l.plan.timeoutMs = 3600000 ∧ l.plan.Converted (timed 3600) := by
  obtain ⟨l, notices, hl, htimeout⟩ : ∃ (l : LoadedPlan Double) (notices : List Notice),
      run (ofJson .empty (utf8 ".") (timed 3600)) = (.ok l, notices) ∧
        l.plan.timeoutMs = 3600000 :=
    exists_of_run (by decide +kernel)
  exact ⟨l, notices, hl, htimeout, converted_of_loaded hl⟩

/-- Ten to the sixteenth seconds are accepted, and come to less than nothing. -/
theorem exists_overflow : ∃ (l : LoadedPlan Double) (notices : List Notice),
    run (ofJson .empty (utf8 ".") (timed 10000000000000000)) = (.ok l, notices) ∧
      l.plan.timeoutMs = -(Word.half : Int) ∧
      Duration.toNanos l.plan.duration = -(Word.half : Int) :=
  exists_of_run (by decide +kernel)

end PlanLoader

end LoadGenerator
