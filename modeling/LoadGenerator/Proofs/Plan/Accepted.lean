import LoadGenerator.Proofs.Plan.Conversions
import LoadGenerator.Proofs.Plan.Runnable

namespace LoadGenerator

/-- Whoever runs the plan finds something to do, and gets a row or a scenario for every draw. -/
structure Plan.Provides (p : Plan Rat) : Prop where
  work : ∀ (c : Run.Course Rat) (s : Run.State Rat) (w : Run.Worker Rat) (version : Nat)
    (jar : CookieJar), (s.beginUnit c w ⟨p, version⟩).1 ≠ .complete jar .nothing
  row : ∀ x ∈ p.scenarios, ∀ t ∈ x.table, ∀ n, t.deal n ∈ t.rows
  scenario : ∀ s ∈ p.selector, ∀ u, s.selectAt u ∈ p.scenarios

namespace Run

variable {α : Type} [Scalar α]

theorem ne_nothing_of_opens {c : Course α} {now : Int} {held jar : CookieJar} {e : Edition α}
    {act : Act} (h : Opens c now held e act) (hw : HasWork e.plan) :
    act ≠ .complete jar .nothing := by
  cases h with
  | @scenario selector hs random row x hx hrow =>
    generalize x.start (selector.selectAt (Selector.point random)).steps
      (Variables.load [] row) held = demand
    cases demand <;> nofun
  | bare hs ht => nofun
  | nothing hs ht => exact (hw.elim (· hs) (· ht)).elim

end Run

namespace Plan

theorem settled_usual : (usual : Plan Rat).Settled := ⟨by decide, by decide⟩

theorem Runnable.provides {p : Plan Rat} (h : p.Runnable) : p.Provides where
  work c s w version jar :=
    Run.ne_nothing_of_opens (Run.State.beginUnit_opens ⟨p, version⟩).1 h.hasWork
  row _ _ t _ n := List.get_mem _ _
  scenario s hs u := by
    rw [Option.mem_def] at hs
    rw [scenarios, hs]
    exact List.get_mem _ _

end Plan

theorem GuardConfig.sound_usual : (usual : GuardConfig Rat).Sound where
  pos := by
    change (0 : Rat) < (80 : Int)
    norm_num
  le := by
    change ((80 : Int) : Rat) ≤ (90 : Int)
    norm_num
  interval := by decide

namespace PlanLoader

open PlanReader

theorem sound_scenario (fs : Files) (folder field : Bytes) (v : Json) :
    Ensures (scenario fs folder field v) Scenario.Sound :=
  (ensures_scenario (sound_steps field v)).mono fun _ hsteps =>
    ⟨hsteps.1, hsteps.2, fun t _ => t.length_rows_pos⟩

theorem sound_selector (fs : Files) (folder : Bytes) (v : Json) :
    Ensures (selector fs folder v) fun s? => ∀ s ∈ s?, s.Sound :=
  ensures_selector (fun field w _ => sound_scenario fs folder field w) fun _ =>
    Selector.sound_ofList

theorem runnable_ofJson {fs : Files} {folder : Bytes} {doc : Json}
    (hfits : ∀ c, doc.member? (utf8 "config") = some c → ∀ n : Rat,
      number? c (utf8 "config") "workers" = .ok (some n) → n < Word.count) :
    Ensures (ofJson fs folder doc) fun l => l.plan.Runnable := by
  have hsettings : Ensures (section? doc "config" .usual (settings · .usual)) Plan.Settled :=
    ensures_section Plan.settled_usual fun c hc => settled_settings Plan.settled_usual (hfits c hc)
  have hguard : Ensures (section? doc "memoryGuard" .usual guard) GuardConfig.Sound :=
    ensures_section GuardConfig.sound_usual fun g _ => sound_guard g
  refine (ensures_ofJson hsettings LoadModel.nonneg_validate hguard
    (sound_selector fs folder doc)).mono fun l hl => ?_
  obtain ⟨p, hp, hplan⟩ := hl.settings
  have hsettled : l.plan.Settled := by
    rw [hplan]
    exact ⟨hp.workers, hp.sampling⟩
  have hwork : Run.HasWork l.plan := by
    have hsome := hl.work
    rwa [Bool.and_eq_false_iff, Option.isNone_eq_false_iff, Option.isNone_eq_false_iff,
      Option.isSome_iff_ne_none, Option.isSome_iff_ne_none, or_comm] at hsome
  exact ⟨hsettled, hl.baseUrl, hl.guard, hl.load, hwork, hl.selector⟩

/-- Where numbers are exact and milliseconds may be of any size, a plan that is accepted can be run,
and whoever runs it finds something to do. With doubles and 64 bits the bounds of its pauses stay in
order as long as the upper ones fit. -/
theorem runnable_of_loaded {fs : Files} {folder : Bytes} {doc : Json} {l : LoadedPlan Rat}
    {notices : List Notice}
    (hfits : ∀ c, doc.member? (utf8 "config") = some c → ∀ n : Rat,
      number? c (utf8 "config") "workers" = .ok (some n) → n < Word.count)
    (h : run (ofJson fs folder doc) = (.ok l, notices)) :
    l.plan.Runnable ∧ l.plan.Provides ∧ ∀ (m : LoadedPlan Double) (notices' : List Notice),
      run (ofJson fs folder doc) = (.ok m, notices') → m.plan.KeepsOrder := by
  have hrunnable : l.plan.Runnable := runnable_ofJson hfits l [] notices h
  exact ⟨hrunnable, hrunnable.provides, fun m notices' hm =>
    (converted_ofJson fs folder doc m [] notices' hm).keepsOrder⟩

def text (s : String) : Json := .string (utf8 s)

def visit (pause : Json) : Json :=
  .ofMembers
    [(utf8 "name", text "shop"), (utf8 "weight", .int 2), (utf8 "dataFile", text "users.csv"),
      (utf8 "steps", .array [.ofMembers
        [(utf8 "request", .ofMembers [(utf8 "path", text "/")]),
          (utf8 "extract", .array [.ofMembers
            [(utf8 "name", text "id"), (utf8 "regex", text "id=(.*)")]]),
          (utf8 "assertions", .array [.ofMembers
            [(utf8 "type", text "statusCode"), (utf8 "expected", .int 200)]]),
          (utf8 "thinkTime", pause)]])]

def shop (pause : Json) : Json :=
  .ofMembers
    [(utf8 "config", .ofMembers [(utf8 "baseUrl", text "http://shop"), (utf8 "workers", .int 3)]),
      (utf8 "load", .ofMembers [(utf8 "model", text "ramp"), (utf8 "min", .int 0),
        (utf8 "max", .int 20), (utf8 "rampDuration", text "2m")]),
      (utf8 "memoryGuard", .ofMembers [(utf8 "warningPercent", .int 70)]),
      (utf8 "scenarios", .array [visit pause, visit pause])]

def pause (low high : Int) : Json :=
  .ofMembers [(utf8 "min", .int low), (utf8 "max", .int high)]

def users : Files := ⟨[([utf8 "users.csv"], ⟨utf8 "name\nann\nbob\n", 0⟩)], []⟩

theorem runnable_of_loaded_shop : ∃ (l : LoadedPlan Rat) (m : LoadedPlan Double)
    (notices notices' : List Notice),
    run (ofJson users (utf8 ".") (shop (pause 1 2))) = (.ok l, notices) ∧
      run (ofJson users (utf8 ".") (shop (pause 1 2))) = (.ok m, notices') ∧
      l.plan.workers = 3 ∧ l.plan.Runnable ∧ l.plan.Provides ∧ m.plan.KeepsOrder := by
  obtain ⟨l, notices, hl, hworkers⟩ : ∃ (l : LoadedPlan Rat) (notices : List Notice),
      run (ofJson users (utf8 ".") (shop (pause 1 2))) = (.ok l, notices) ∧ l.plan.workers = 3 :=
    exists_of_run (by decide +kernel)
  obtain ⟨m, notices', hm, -⟩ : ∃ (m : LoadedPlan Double) (notices' : List Notice),
      run (ofJson users (utf8 ".") (shop (pause 1 2))) = (.ok m, notices') ∧ m.plan.workers = 3 :=
    exists_of_run (by decide +kernel)
  have hfits (c : Json) (hc : (shop (pause 1 2)).member? (utf8 "config") = some c) (n : Rat)
      (hn : number? c (utf8 "config") "workers" = .ok (some n)) : n < Word.count := by
    obtain rfl := Option.some.inj hc
    have hn : Except.ok (some (3 : Rat)) = .ok (some n) := hn
    obtain rfl := Option.some.inj (Except.ok.inj hn)
    have hthree : 3 < Word.count := by decide
    exact_mod_cast hthree
  obtain ⟨hrunnable, hprovides, hkeeps⟩ := runnable_of_loaded hfits hl
  exact ⟨l, m, notices, notices', hl, hm, hworkers, hrunnable, hprovides, hkeeps m notices' hm⟩

/-- Bounds are compared as seconds. Milliseconds that do not fit in 64 bits become the least number
there is, and then the bounds of a pause are no longer in order. -/
theorem exists_reversed : ∃ (l : LoadedPlan Double) (notices : List Notice),
    run (ofJson users (utf8 ".") (shop (pause 1 10000000000000000))) = (.ok l, notices) ∧
      ∃ x ∈ l.plan.scenarios, ∃ step ∈ x.steps,
        step.thinkTime = some (.between 1000 (-(Word.half : Int))) :=
  exists_of_run (by decide +kernel)

end PlanLoader

end LoadGenerator
