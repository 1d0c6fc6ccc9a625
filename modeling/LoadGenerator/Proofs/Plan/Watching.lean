import LoadGenerator.CommandLine
import LoadGenerator.Plan.Watcher
import LoadGenerator.Proofs.Plan.Reading
import LoadGenerator.Scalar.Rational

namespace LoadGenerator

variable {α : Type} [Scalar α]

def Options.adapt (o : Options) (plan : Plan α) : Except ConfigError (Plan α) :=
  (o.withWorkers (o.withUrl plan)).bind o.withDuration

namespace Watcher

def look? (w : Watcher α) (fs : Files) : Option (Watcher α) :=
  match modified? fs w.path with
  | none => none
  | some time => if w.remembered = some time then none else some { w with remembered := some time }

def reload (w : Watcher α) (fs : Files) : Watcher α :=
  match (PlanLoader.run (PlanLoader.ofFile fs w.path)).1 with
  | .error _ => w
  | .ok l => (w.adopt l).1

theorem poll_eq (w : Watcher α) (fs : Files) :
    (w.poll fs).1 = ((w.look? fs).map (·.reload fs)).getD w := by
  unfold poll look?
  cases modified? fs w.path with
  | none => rfl
  | some time =>
    dsimp only
    split
    · rfl
    · simp only [Option.map_some, Option.getD_some, reload]
      split
      · next h => simp [h]
      · next h => simp [h]

omit [Scalar α] in
theorem look?_create (fs : Files) (path : Bytes) (intervalMs : Int) (plan : Plan α) :
    (create fs path intervalMs plan).look? fs = none := by
  unfold look? create
  cases modified? fs path with
  | none => rfl
  | some time => exact if_pos rfl

omit [Scalar α] in
theorem look?_create_of_ne {fs fs' : Files} {path : Bytes} {time : Int}
    (ht : modified? fs' path = some time) (hne : modified? fs path ≠ some time)
    (intervalMs : Int) (plan : Plan α) :
    (create fs path intervalMs plan).look? fs' =
      some { create fs path intervalMs plan with remembered := some time } := by
  unfold look? create
  rw [ht]
  exact if_neg hne

end Watcher

inductive Happening where
  | edit (edits : List Edit)
  | load
  | watch
  | poll
  | look
  | reload
  deriving DecidableEq

namespace Happening

def isEdit : Happening → Bool
  | .edit _ => true
  | _ => false

def beginsPoll : Happening → Bool
  | .poll => true
  | .look => true
  | _ => false

end Happening

inductive Stage (α : Type) where
  | fresh
  | loaded (plan : Plan α)
  | watching (w : Watcher α)
  | polling (w : Watcher α)

/-- The file, and what the program has made of it. -/
structure Vigil (α : Type) where
  files : Files
  times : List Int
  stage : Stage α

/-- The plan in a file, which is accepted. -/
def Files.Holds (fs : Files) (path : Bytes) (plan : Plan α) : Prop :=
  ∃ warnings, (PlanLoader.run (PlanLoader.ofFile fs path)).1 = .ok ⟨plan, warnings⟩

namespace Vigil

open Watcher

/-- What comes of what has happened, the newest first. Every edit leaves a plan that is accepted, and
a time that the file has not had before. -/
inductive Comes (o : Options) (path : Bytes) (fs : Files) : List Happening → Vigil α → Prop
  | start : Comes o path fs [] ⟨fs, (modified? fs path).toList, .fresh⟩
  | edit {past : List Happening} {v : Vigil α} {edits : List Edit} {time : Int} {plan : Plan α}
      (h : Comes o path fs past v) (hp : (Edit.applyAll v.files edits).Holds path plan)
      (ht : modified? (Edit.applyAll v.files edits) path = some time) (hnew : time ∉ v.times) :
      Comes o path fs (.edit edits :: past) ⟨Edit.applyAll v.files edits, time :: v.times, v.stage⟩
  | load {past : List Happening} {v : Vigil α} {l : LoadedPlan α} (h : Comes o path fs past v)
      (hv : v.stage = .fresh) (hl : (PlanLoader.run (o.load v.files)).1 = .ok l) :
      Comes o path fs (.load :: past) { v with stage := .loaded l.plan }
  | watch {past : List Happening} {v : Vigil α} {plan : Plan α} (h : Comes o path fs past v)
      (hv : v.stage = .loaded plan) (intervalMs : Int) :
      Comes o path fs (.watch :: past)
        { v with stage := .watching (.create v.files path intervalMs plan) }
  | poll {past : List Happening} {v : Vigil α} {w : Watcher α} (h : Comes o path fs past v)
      (hv : v.stage = .watching w) :
      Comes o path fs (.poll :: past) { v with stage := .watching (w.poll v.files).1 }
  | look {past : List Happening} {v : Vigil α} {w : Watcher α} (h : Comes o path fs past v)
      (hv : v.stage = .watching w) :
      Comes o path fs (.look :: past)
        { v with stage := ((w.look? v.files).map Stage.polling).getD (.watching w) }
  | reload {past : List Happening} {v : Vigil α} {w : Watcher α} (h : Comes o path fs past v)
      (hv : v.stage = .polling w) :
      Comes o path fs (.reload :: past) { v with stage := .watching (w.reload v.files) }

/-- The channel holds the plan in the file; before anything is published, as the options have it. -/
def Shows (o : Options) (path : Bytes) (fs : Files) (channel : Channel (Plan α) Listener) : Prop :=
  ∃ plan, fs.Holds path plan ∧
    (channel.current = plan ∨ channel.version = 1 ∧ o.adapt plan = .ok channel.current)

/-- `w` has not missed an edit: it remembers a time that the file has had, and the time that the file
has only if the plan in it has been published, or is about to be. -/
structure Follows (o : Options) (path : Bytes) (v : Vigil α) (w : Watcher α) : Prop where
  stage : v.stage = .watching w ∨ v.stage = .polling w
  reads : w.path = path
  accepted : ∃ plan : Plan α, v.files.Holds path plan
  had : ∀ time, modified? v.files path = some time → time ∈ v.times
  seen : ∀ time, w.remembered = some time → time ∈ v.times
  unseen : modified? v.files path = none → w.remembered = none
  shows : v.stage = .watching w → modified? v.files path = w.remembered →
    Shows o path v.files w.channel

section

variable {o : Options} {path : Bytes} {fs : Files} {past before between since : List Happening}
  {v : Vigil α} {w : Watcher α}

theorem run_mk {β : Type} (x : Except ConfigError β) (notices : List Notice) :
    StateT.run (ExceptT.mk (pure x) : PlanLoader.Load β) notices = (x, notices) := rfl

theorem run_load (ho : o.plan = some path) : (PlanLoader.run (o.load fs)).1 =
    (PlanLoader.run (PlanLoader.ofFile fs path : PlanLoader.Load (LoadedPlan α))).1.bind fun l =>
      (o.adapt l.plan).map fun plan => { l with plan } := by
  unfold Options.load Options.basis
  rw [ho]
  simp only [PlanLoader.run, PlanLoader.run_bind, run_mk]
  rcases StateT.run (PlanLoader.ofFile fs path : PlanLoader.Load (LoadedPlan α)) [] with
    ⟨_ | l, notices⟩
  · rfl
  · dsimp only [Except.bind, Options.adapt]
    cases o.withWorkers (o.withUrl l.plan) with
    | error e => rfl
    | ok plan =>
      dsimp only
      cases o.withDuration plan <;> rfl

theorem holds_of_load (ho : o.plan = some path) {l : LoadedPlan α}
    (h : (PlanLoader.run (o.load fs)).1 = .ok l) :
    ∃ plan, fs.Holds path plan ∧ o.adapt plan = .ok l.plan := by
  rw [run_load ho] at h
  cases hf : (PlanLoader.run (PlanLoader.ofFile fs path : PlanLoader.Load (LoadedPlan α))).1 with
  | error e =>
    rw [hf] at h
    cases h
  | ok l' =>
    rw [hf] at h
    refine ⟨l'.plan, ⟨l'.warnings, hf⟩, ?_⟩
    cases ha : o.adapt l'.plan with
    | error e => simp [Except.bind, Except.map, ha] at h
    | ok plan =>
      obtain rfl : { l' with plan } = l := by simpa [Except.bind, Except.map, ha] using h
      rfl

theorem Comes.mem_times (h : Comes o path fs past v) :
    ∀ time, modified? v.files path = some time → time ∈ v.times := by
  induction h with
  | start => simp
  | edit h hp ht hnew ih =>
    intro time htime
    obtain rfl := Option.some.inj (ht.symm.trans htime)
    exact List.mem_cons_self
  | load h hv hl ih => exact ih
  | watch h hv ms ih => exact ih
  | poll h hv ih => exact ih
  | look h hv ih => exact ih
  | reload h hv ih => exact ih

theorem Comes.exists_follows_watch (ho : o.plan = some path)
    (h : Comes o path fs (.watch :: .load :: before) v) : ∃ w, Follows o path v w := by
  cases h with
  | watch h hv ms =>
    cases h with
    | load h hfresh hl =>
      obtain rfl := Stage.loaded.inj hv
      obtain ⟨plan, hp, ha⟩ := holds_of_load ho hl
      refine ⟨_, .inl rfl, rfl, ⟨plan, hp⟩, h.mem_times, h.mem_times, id, fun _ _ => ?_⟩
      exact ⟨plan, hp, .inr ⟨rfl, ha⟩⟩

theorem reload_keeps (w : Watcher α) (fs : Files) :
    (w.reload fs).path = w.path ∧ (w.reload fs).remembered = w.remembered := by
  rw [reload]
  split
  · exact ⟨rfl, rfl⟩
  · dsimp only [adopt]
    split <;> exact ⟨rfl, rfl⟩

theorem current_reload {plan : Plan α} (hw : w.path = path) (hp : fs.Holds path plan) :
    (w.reload fs).channel.current = plan := by
  subst hw
  obtain ⟨warnings, hl⟩ := hp
  rw [reload, hl]
  dsimp only [adopt]
  split <;> rfl

theorem remembered_look (h : Follows o path v w) :
    ((w.look? v.files).getD w).remembered = modified? v.files path ∧
      ((w.look? v.files).getD w).path = path := by
  rw [look?, h.reads]
  cases ht : modified? v.files path with
  | none => exact ⟨h.unseen ht, h.reads⟩
  | some time =>
    dsimp only
    split
    · next hr => exact ⟨hr, h.reads⟩
    · exact ⟨rfl, rfl⟩

theorem Follows.edit (h : Follows o path v w) {edits : List Edit} {time : Int} {plan : Plan α}
    (hp : (Edit.applyAll v.files edits).Holds path plan)
    (ht : modified? (Edit.applyAll v.files edits) path = some time) (hnew : time ∉ v.times) :
    Follows o path ⟨Edit.applyAll v.files edits, time :: v.times, v.stage⟩ w where
  stage := h.stage
  reads := h.reads
  accepted := ⟨plan, hp⟩
  had u hu := by
    obtain rfl := Option.some.inj (ht.symm.trans hu)
    exact List.mem_cons_self
  seen u hu := List.mem_cons_of_mem _ (h.seen u hu)
  unseen hn := by
    rw [ht] at hn
    cases hn
  shows _ hr := by
    -- the new time is none that the watcher can remember
    rw [ht] at hr
    exact absurd (h.seen time hr.symm) hnew

theorem Follows.look (h : Follows o path v w) (hv : v.stage = .watching w) :
    Follows o path { v with stage := ((w.look? v.files).map Stage.polling).getD (.watching w) }
      ((w.look? v.files).getD w) := by
  obtain ⟨hr, hpath⟩ := remembered_look h
  refine ⟨?_, hpath, h.accepted, h.had, fun time ht => h.had time (hr ▸ ht),
    fun hn => hr.trans hn, ?_⟩
  · cases w.look? v.files with
    | none => exact .inl rfl
    | some w' => exact .inr rfl
  · cases hl : w.look? v.files with
    | none =>
      rw [hl] at hr
      exact fun _ _ => h.shows hv hr.symm
    | some w' => exact nofun

theorem Follows.reload (h : Follows o path v w) :
    Follows o path { v with stage := .watching (w.reload v.files) } (w.reload v.files) := by
  obtain ⟨plan, hp⟩ := h.accepted
  obtain ⟨hpath, hr⟩ := reload_keeps w v.files
  refine ⟨.inl rfl, hpath.trans h.reads, h.accepted, h.had, ?_, ?_, fun _ _ => ?_⟩
  · rw [hr]
    exact h.seen
  · rw [hr]
    exact h.unseen
  · exact ⟨plan, hp, .inl (current_reload h.reads hp)⟩

theorem Follows.poll (h : Follows o path v w) (hv : v.stage = .watching w) :
    Follows o path { v with stage := .watching (w.poll v.files).1 } (w.poll v.files).1 ∧
      (w.poll v.files).1.remembered = modified? v.files path := by
  have hl := h.look hv
  have hr := (remembered_look h).1
  rw [poll_eq]
  cases hlook : w.look? v.files with
  | none =>
    rw [hlook] at hl hr
    exact ⟨hl, hr⟩
  | some w' =>
    rw [hlook] at hl hr
    exact ⟨hl.reload, (reload_keeps w' v.files).2.trans hr⟩

theorem Follows.eq_of_watching {w' : Watcher α} (h : Follows o path v w)
    (hv : v.stage = .watching w') : w' = w := by
  rcases h.stage with hs | hs
  · exact Stage.watching.inj (hv.symm.trans hs)
  · cases hv.symm.trans hs

theorem Follows.eq_of_polling {w' : Watcher α} (h : Follows o path v w)
    (hv : v.stage = .polling w') : w' = w := by
  rcases h.stage with hs | hs
  · cases hv.symm.trans hs
  · exact Stage.polling.inj (hv.symm.trans hs)

theorem Comes.exists_follows_cons {e : Happening} (h : Comes o path fs (e :: past) v)
    (hf : ∀ {v : Vigil α}, Comes o path fs past v → ∃ w, Follows o path v w) :
    ∃ w, Follows o path v w := by
  cases h with
  | edit h hp ht hnew =>
    obtain ⟨w, hw⟩ := hf h
    exact ⟨w, hw.edit hp ht hnew⟩
  | load h hv hl =>
    obtain ⟨w, hw⟩ := hf h
    rcases hw.stage with hs | hs <;> cases hv.symm.trans hs
  | watch h hv ms =>
    obtain ⟨w, hw⟩ := hf h
    rcases hw.stage with hs | hs <;> cases hv.symm.trans hs
  | poll h hv =>
    obtain ⟨w, hw⟩ := hf h
    obtain rfl := hw.eq_of_watching hv
    exact ⟨_, (hw.poll hv).1⟩
  | look h hv =>
    obtain ⟨w, hw⟩ := hf h
    obtain rfl := hw.eq_of_watching hv
    exact ⟨_, hw.look hv⟩
  | reload h hv =>
    obtain ⟨w, hw⟩ := hf h
    obtain rfl := hw.eq_of_polling hv
    exact ⟨_, hw.reload⟩

theorem Comes.exists_follows (ho : o.plan = some path)
    (h : Comes o path fs (between ++ .watch :: .load :: before) v) : ∃ w, Follows o path v w := by
  induction between generalizing v with
  | nil => exact h.exists_follows_watch ho
  | cons e between ih => exact h.exists_follows_cons ih

theorem Comes.exists_remembered_poll (between : List Happening) {e : Happening}
    (ho : o.plan = some path) (h : Comes o path fs (e :: between ++ .watch :: .load :: before) v)
    (he : e.beginsPoll = true) :
    ∃ w, Follows o path v w ∧ w.remembered = modified? v.files path := by
  cases h with
  | poll h hv =>
    obtain ⟨w, hw⟩ := h.exists_follows ho
    obtain rfl := hw.eq_of_watching hv
    exact ⟨_, hw.poll hv⟩
  | look h hv =>
    obtain ⟨w, hw⟩ := h.exists_follows ho
    obtain rfl := hw.eq_of_watching hv
    exact ⟨_, hw.look hv, (remembered_look hw).1⟩
  | edit => cases he
  | load => cases he
  | watch => cases he
  | reload => cases he

theorem Comes.exists_remembered {e : Happening} (ho : o.plan = some path)
    (h : Comes o path fs (since ++ e :: between ++ .watch :: .load :: before) v)
    (he : e.beginsPoll = true) (hsince : ∀ e ∈ since, e.isEdit = false) :
    ∃ w, Follows o path v w ∧ w.remembered = modified? v.files path := by
  induction since generalizing v with
  | nil => exact h.exists_remembered_poll between ho he
  | cons e' since ih =>
    obtain ⟨he', hrest⟩ := List.forall_mem_cons.mp hsince
    by_cases hpoll : e'.beginsPoll = true
    · exact Comes.exists_remembered_poll (since ++ e :: between) ho h hpoll
    · cases h with
      | edit h hp ht hnew => cases he'
      | load h hv hl =>
        obtain ⟨w, hw, -⟩ := ih h hrest
        rcases hw.stage with hs | hs <;> cases hv.symm.trans hs
      | watch h hv ms =>
        obtain ⟨w, hw, -⟩ := ih h hrest
        rcases hw.stage with hs | hs <;> cases hv.symm.trans hs
      | poll h hv => exact absurd rfl hpoll
      | look h hv => exact absurd rfl hpoll
      | reload h hv =>
        obtain ⟨w, hw, hr⟩ := ih h hrest
        obtain rfl := hw.eq_of_polling hv
        exact ⟨_, hw.reload, (reload_keeps _ _).2.trans hr⟩

/-- Where the file was not edited between the moment its plan was loaded and the moment its watcher
was made, no edit is lost: after a poll that follows the last edit, the plan in the file is in the
channel. -/
theorem shows_after_poll (before between since : List Happening) {e : Happening}
    (ho : o.plan = some path)
    (h : Comes o path fs (since ++ e :: between ++ .watch :: .load :: before) v)
    (he : e.beginsPoll = true) (hsince : ∀ e ∈ since, e.isEdit = false)
    (hw : v.stage = .watching w) : Shows o path v.files w.channel := by
  obtain ⟨w', hf, hr⟩ := h.exists_remembered ho he hsince
  obtain rfl := hf.eq_of_watching hw
  exact hf.shows hw hr.symm

end

@[irreducible]
def planPath : Bytes := utf8 "plan.json"

def planText (workers : Nat) : Bytes :=
  utf8 "\x7b\"config\": \x7b\"workers\": " ++ Text.ofNat workers ++
    utf8 "\x7d, \"request\": \x7b\"path\": \"/\"\x7d\x7d"

def planFolder : Files := ⟨[([planPath], ⟨planText 2, 0⟩)], []⟩

def moreWorkers : List Edit := [.write planPath (planText 3) 1]

def watchOptions : Options := { CommandLine.noOptions with plan := some planPath, watch := true }

theorem exists_comes_load : ∃ plan : Plan Rat, plan.workers = 2 ∧
    Comes watchOptions planPath planFolder [.load]
      ⟨planFolder, (modified? planFolder planPath).toList, .loaded plan⟩ := by
  obtain ⟨l, notices, hl, hw⟩ := PlanLoader.exists_of_run (x := watchOptions.load planFolder)
    (P := fun l : LoadedPlan Rat => l.plan.workers = 2) (by decide +kernel)
  exact ⟨l.plan, hw, Comes.start.load rfl (congrArg Prod.fst hl)⟩

theorem exists_holds_edited : ∃ plan : Plan Rat, plan.workers = 3 ∧
    (Edit.applyAll planFolder moreWorkers).Holds planPath plan := by
  obtain ⟨l, notices, hl, hw⟩ := PlanLoader.exists_of_run
    (x := PlanLoader.ofFile (Edit.applyAll planFolder moreWorkers) planPath)
    (P := fun l : LoadedPlan Rat => l.plan.workers = 3) (by decide +kernel)
  exact ⟨l.plan, hw, l.warnings, congrArg Prod.fst hl⟩

theorem time_planFolder : modified? planFolder planPath = some 0 := by decide +kernel

theorem time_edited : modified? (Edit.applyAll planFolder moreWorkers) planPath = some 1 := by
  decide +kernel

theorem one_not_mem_times : (1 : Int) ∉ (modified? planFolder planPath).toList := by
  rw [time_planFolder]
  decide

theorem shows_after_poll_reloaded : ∃ (v : Vigil Rat) (w : Watcher Rat),
    Comes watchOptions planPath planFolder [.reload, .look, .edit moreWorkers, .watch, .load] v ∧
      v.stage = .watching w ∧ w.channel.current.workers = 3 ∧
        Shows watchOptions planPath v.files w.channel := by
  obtain ⟨plan, -, hload⟩ := exists_comes_load
  obtain ⟨plan', hworkers, hp⟩ := exists_holds_edited
  have hne : modified? planFolder planPath ≠ some 1 := by
    rw [time_planFolder]
    decide
  have hpoll := ((hload.watch rfl 1000).edit hp time_edited one_not_mem_times).look rfl
  dsimp only at hpoll
  rw [look?_create_of_ne time_edited hne] at hpoll
  have h := hpoll.reload rfl
  refine ⟨_, _, h, rfl, ?_, ?_⟩
  · rw [current_reload rfl hp, hworkers]
  · exact shows_after_poll [] [.edit moreWorkers] [.reload] rfl h rfl (by decide) rfl

/-- An edit between the moment the plan was loaded and the moment its watcher was made is lost. -/
theorem exists_missed : ∃ (v : Vigil Rat) (w : Watcher Rat),
    Comes watchOptions planPath planFolder [.look, .watch, .edit moreWorkers, .load] v ∧
      v.stage = .watching w ∧ ¬Shows watchOptions planPath v.files w.channel := by
  obtain ⟨plan, hworkers, hload⟩ := exists_comes_load
  obtain ⟨plan', hworkers', hp⟩ := exists_holds_edited
  have h := ((hload.edit hp time_edited one_not_mem_times).watch rfl 1000).look rfl
  dsimp only at h
  rw [look?_create] at h
  refine ⟨_, _, h, rfl, ?_⟩
  -- the plan in the file is `plan'`, and that in the channel is still `plan`
  rintro ⟨shown, ⟨warnings, hshown⟩, hcur⟩
  obtain ⟨warnings', hp⟩ := hp
  obtain ⟨rfl, -⟩ := LoadedPlan.mk.inj (Except.ok.inj (hp.symm.trans hshown))
  have hsame : plan.workers = plan'.workers := by
    rcases hcur with rfl | ⟨-, ha⟩
    · rfl
    · exact congrArg Plan.workers (Except.ok.inj ha).symm
  omega

end Vigil

end LoadGenerator
