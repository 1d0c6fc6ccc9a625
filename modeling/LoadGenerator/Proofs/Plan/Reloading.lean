import LoadGenerator.Proofs.Plan.Watching

namespace LoadGenerator

variable {α : Type} [Scalar α]

namespace Finding

def isBroken : Finding → Bool
  | .broken _ => true
  | .unchanged => false
  | .rejected => false
  | .reloaded => false

end Finding

namespace Channel

variable {π : Type}

/-- The listener that breaks down first when the next plan is published. -/
def break? (c : Channel π Listener) : Option Bytes :=
  c.listeners.findSome? fun (_, l) => l (c.version + 1)

theorem findSome?_publish (c : Channel π Listener) (plan : π) :
    (c.publish plan).2.findSome? (fun a => a.listener a.version) = c.break? := by
  rw [publish, List.findSome?_map]
  rfl

theorem break?_eq_none {c : Channel π Listener} :
    c.break? = none ↔ ∀ id l, (id, l) ∈ c.listeners → l (c.version + 1) = none := by
  simp [break?]

end Channel

namespace Watcher

/-- What can come of a poll. -/
inductive Polls (w : Watcher α) (fs : Files) : Watcher α → Finding → Prop
  | missing (ht : modified? fs w.path = none) : Polls w fs w .unchanged
  | same {time : Int} (ht : modified? fs w.path = some time) (hr : w.remembered = some time) :
      Polls w fs w .unchanged
  | rejected {time : Int} (ht : modified? fs w.path = some time) (hr : w.remembered ≠ some time)
      (hp : ∀ plan : Plan α, ¬fs.Holds w.path plan) :
      Polls w fs { w with remembered := some time } .rejected
  | reloaded {time : Int} {plan : Plan α} (ht : modified? fs w.path = some time)
      (hr : w.remembered ≠ some time) (hp : fs.Holds w.path plan) (hl : w.channel.break? = none) :
      Polls w fs
        { w with
          remembered := some time, reloads := w.reloads + 1, channel := (w.channel.publish plan).1 }
        .reloaded
  | broken {time : Int} {plan : Plan α} {message : Bytes} (ht : modified? fs w.path = some time)
      (hr : w.remembered ≠ some time) (hp : fs.Holds w.path plan)
      (hl : w.channel.break? = some message) :
      Polls w fs { w with remembered := some time, channel := (w.channel.publish plan).1 }
        (.broken message)

theorem polls (w : Watcher α) (fs : Files) : Polls w fs (w.poll fs).1 (w.poll fs).2.1 := by
  unfold poll
  cases ht : modified? fs w.path with
  | none => exact .missing ht
  | some time =>
    dsimp only
    split
    · next hr => exact .same ht hr
    · next hr =>
      split
      · next e notices hl =>
        refine .rejected ht hr ?_
        rintro plan ⟨warnings, hp⟩
        cases (congrArg Prod.fst hl).symm.trans hp
      · next l notices hl =>
        have hp : fs.Holds w.path l.plan := ⟨l.warnings, congrArg Prod.fst hl⟩
        simp only [adopt, Channel.findSome?_publish]
        cases hb : w.channel.break? with
        | none => exact .reloaded ht hr hp hb
        | some message => exact .broken ht hr hp hb

end Watcher

theorem Files.Holds.eq {fs : Files} {path : Bytes} {plan plan' : Plan α} (h : fs.Holds path plan)
    (h' : fs.Holds path plan') : plan = plan' := by
  obtain ⟨warnings, h⟩ := h
  obtain ⟨warnings', h'⟩ := h'
  exact congrArg LoadedPlan.plan (Except.ok.inj (h.symm.trans h'))

namespace Watcher

/-- The file stands there with a plan that is accepted, under another time than the one that was
remembered. -/
def IsNew (fs : Files) (path : Bytes) (remembered : Option Int) (plan : Plan α) : Prop :=
  modified? fs path ≠ none ∧ modified? fs path ≠ remembered ∧ fs.Holds path plan

/-- How a poll and its answer belong to the file, of which `remembered` is the time that was seen
last. -/
structure Answers (w : Watcher α) (fs : Files) (remembered : Option Int) (w' : Watcher α)
    (f : Finding) : Prop where
  reloaded : f = .reloaded ↔ (∃ plan : Plan α, IsNew fs w.path remembered plan) ∧
    ∀ id l, (id, l) ∈ w.channel.listeners → l (w.channel.version + 1) = none
  broken : f.isBroken = true ↔ (∃ plan : Plan α, IsNew fs w.path remembered plan) ∧
    ∃ id l, (id, l) ∈ w.channel.listeners ∧ l (w.channel.version + 1) ≠ none
  published : f = .reloaded ∨ f.isBroken = true → ∃ plan, fs.Holds w.path plan ∧
    w'.channel = { w.channel with current := plan, version := w.channel.version + 1 }
  kept : f = .unchanged ∨ f = .rejected → w'.channel = w.channel
  missing : modified? fs w.path = none → w' = w ∧ f = .unchanged
  again : ∀ fs', modified? fs' w.path = modified? fs w.path →
    (w'.poll fs').1 = w' ∧ (w'.poll fs').2.1 = .unchanged

namespace Polls

variable {w w' : Watcher α} {fs : Files} {f : Finding}

theorem path (h : Polls w fs w' f) : w'.path = w.path := by
  cases h <;> rfl

theorem remembered (h : Polls w fs w' f) :
    w'.remembered = (modified? fs w.path).or w.remembered := by
  cases h with
  | missing ht => rw [ht, Option.none_or]
  | same ht hr => rw [ht, hr, Option.some_or]
  | rejected ht hr hp => rw [ht, Option.some_or]
  | reloaded ht hr hp hl => rw [ht, Option.some_or]
  | broken ht hr hp hl => rw [ht, Option.some_or]

theorem reloads (h : Polls w fs w' f) :
    w'.reloads = w.reloads + if f = .reloaded then 1 else 0 := by
  cases h <;> rfl

theorem version (h : Polls w fs w' f) : w'.channel.version =
    w.channel.version + (if f = .reloaded then 1 else 0) + if f.isBroken then 1 else 0 := by
  cases h <;> rfl

theorem unchanged (h : Polls w fs w' f)
    (hs : modified? fs w.path = none ∨ modified? fs w.path = w.remembered) :
    w' = w ∧ f = .unchanged := by
  have hno {time : Int} (ht : modified? fs w.path = some time) (hr : w.remembered ≠ some time) :
      False := by
    rcases hs with hnone | heq
    · cases ht.symm.trans hnone
    · exact hr (heq.symm.trans ht)
  cases h with
  | missing ht => exact ⟨rfl, rfl⟩
  | same ht hr => exact ⟨rfl, rfl⟩
  | rejected ht hr hp => exact (hno ht hr).elim
  | reloaded ht hr hp hl => exact (hno ht hr).elim
  | broken ht hr hp hl => exact (hno ht hr).elim

theorem exists_isNew_iff (h : Polls w fs w' f) :
    (∃ plan : Plan α, IsNew fs w.path w.remembered plan) ↔ f = .reloaded ∨ f.isBroken = true := by
  have hnew {time : Int} {plan : Plan α} (ht : modified? fs w.path = some time)
      (hr : w.remembered ≠ some time) (hp : fs.Holds w.path plan) :
      IsNew fs w.path w.remembered plan :=
    ⟨by simp [ht], fun heq => hr (heq.symm.trans ht), hp⟩
  constructor
  · rintro ⟨plan, hsome, hne, hplan⟩
    cases h with
    | missing ht => exact absurd ht hsome
    | same ht hr => exact absurd (ht.trans hr.symm) hne
    | rejected ht hr hp => exact absurd hplan (hp plan)
    | reloaded ht hr hp hl => exact .inl rfl
    | broken ht hr hp hl => exact .inr rfl
  · intro hf
    cases h with
    | missing ht => simp [Finding.isBroken] at hf
    | same ht hr => simp [Finding.isBroken] at hf
    | rejected ht hr hp => simp [Finding.isBroken] at hf
    | reloaded ht hr hp hl => exact ⟨_, hnew ht hr hp⟩
    | broken ht hr hp hl => exact ⟨_, hnew ht hr hp⟩

theorem break?_eq_none (h : Polls w fs w' f) (hf : f = .reloaded) : w.channel.break? = none := by
  cases h with
  | reloaded ht hr hp hl => exact hl
  | _ => cases hf

theorem break?_ne_none (h : Polls w fs w' f) (hf : f.isBroken = true) :
    w.channel.break? ≠ none := by
  cases h with
  | broken ht hr hp hl => simp [hl]
  | _ => cases hf

theorem reloaded_iff (h : Polls w fs w' f) : f = .reloaded ↔
    (∃ plan : Plan α, IsNew fs w.path w.remembered plan) ∧ w.channel.break? = none := by
  constructor
  · exact fun hf => ⟨h.exists_isNew_iff.mpr (.inl hf), h.break?_eq_none hf⟩
  · rintro ⟨hnew, hl⟩
    exact (h.exists_isNew_iff.mp hnew).resolve_right fun hf => h.break?_ne_none hf hl

theorem isBroken_iff (h : Polls w fs w' f) : f.isBroken = true ↔
    (∃ plan : Plan α, IsNew fs w.path w.remembered plan) ∧ w.channel.break? ≠ none := by
  constructor
  · exact fun hf => ⟨h.exists_isNew_iff.mpr (.inr hf), h.break?_ne_none hf⟩
  · rintro ⟨hnew, hl⟩
    exact (h.exists_isNew_iff.mp hnew).resolve_left fun hf => hl (h.break?_eq_none hf)

theorem channel_of_published (h : Polls w fs w' f) (hf : f = .reloaded ∨ f.isBroken = true) :
    ∃ plan, fs.Holds w.path plan ∧
      w'.channel = { w.channel with current := plan, version := w.channel.version + 1 } := by
  cases h with
  | reloaded ht hr hp hl => exact ⟨_, hp, rfl⟩
  | broken ht hr hp hl => exact ⟨_, hp, rfl⟩
  | _ => simp [Finding.isBroken] at hf

theorem channel_of_kept (h : Polls w fs w' f) (hf : f = .unchanged ∨ f = .rejected) :
    w'.channel = w.channel := by
  cases h with
  | reloaded => simp at hf
  | broken => simp at hf
  | _ => rfl

theorem again (h : Polls w fs w' f) {fs' : Files}
    (ht : modified? fs' w.path = modified? fs w.path) :
    (w'.poll fs').1 = w' ∧ (w'.poll fs').2.1 = .unchanged := by
  refine (polls w' fs').unchanged ?_
  rw [h.path, h.remembered, ht]
  cases modified? fs w.path with
  | none => exact .inl rfl
  | some time => exact .inr rfl

theorem answers (h : Polls w fs w' f) : Answers w fs w.remembered w' f where
  reloaded := by rw [h.reloaded_iff, Channel.break?_eq_none]
  broken := by
    rw [h.isBroken_iff, Ne, Channel.break?_eq_none]
    simp only [Classical.not_forall, exists_prop]
  published := h.channel_of_published
  kept := h.channel_of_kept
  missing ht := h.unchanged (.inl ht)
  again _ := h.again

end Polls

end Watcher

inductive Deed where
  | edit (e : Edit)
  | poll
  | subscribe (l : Listener)
  | unsubscribe (id : Nat)

/-- The files, and a watcher of one of them. -/
structure Duty (α : Type) where
  files : Files
  watcher : Watcher α
  /-- The times that the file had when the watcher looked at it, the newest first; none where there
  was no file. -/
  looks : List (Option Int)
  findings : List Finding

namespace Duty

open Watcher Vigil

def begin (fs : Files) (path : Bytes) (intervalMs : Int) (plan : Plan α) : Duty α :=
  ⟨fs, .create fs path intervalMs plan, [modified? fs path], []⟩

def perform (d : Duty α) : Deed → Duty α
  | .edit e => { d with files := e.apply d.files }
  | .poll =>
    { d with
      watcher := (d.watcher.poll d.files).1
      looks := modified? d.files d.watcher.path :: d.looks
      findings := (d.watcher.poll d.files).2.1 :: d.findings }
  | .subscribe l =>
    { d with watcher.channel := (d.watcher.channel.subscribe l).1 }
  | .unsubscribe id => { d with watcher.channel := d.watcher.channel.unsubscribe id }

/-- The time that was seen last. -/
def lastTime : List (Option Int) → Option Int
  | [] => none
  | look :: looks => look.or (lastTime looks)

/-- What a watcher has done agrees with what it has seen. -/
structure Agrees (path : Bytes) (d : Duty α) : Prop where
  reads : d.watcher.path = path
  remembered : d.watcher.remembered = lastTime d.looks
  reloads : d.watcher.reloads = d.findings.count .reloaded
  version : d.watcher.channel.version =
    1 + d.watcher.reloads + d.findings.countP Finding.isBroken

variable {path : Bytes} {d : Duty α}

omit [Scalar α] in
theorem agrees_begin (fs : Files) (path : Bytes) (intervalMs : Int) (plan : Plan α) :
    Agrees path (begin fs path intervalMs plan) where
  reads := rfl
  remembered := (Option.or_none).symm
  reloads := rfl
  version := rfl

theorem Agrees.poll (h : Agrees path d) : Agrees path (d.perform .poll) := by
  have hpoll := polls d.watcher d.files
  constructor
  case reads => exact hpoll.path.trans h.reads
  case remembered =>
    show (d.watcher.poll d.files).1.remembered =
      (modified? d.files d.watcher.path).or (lastTime d.looks)
    rw [hpoll.remembered, h.remembered]
  case reloads =>
    show (d.watcher.poll d.files).1.reloads = ((d.watcher.poll d.files).2.1 :: d.findings).count _
    simp only [hpoll.reloads, h.reloads, List.count_cons, beq_iff_eq]
  case version =>
    show (d.watcher.poll d.files).1.channel.version = 1 + (d.watcher.poll d.files).1.reloads +
      ((d.watcher.poll d.files).2.1 :: d.findings).countP _
    rw [hpoll.version, hpoll.reloads, h.version, List.countP_cons]
    omega

theorem Agrees.perform (h : Agrees path d) (deed : Deed) : Agrees path (d.perform deed) := by
  cases deed with
  | edit e => exact ⟨h.reads, h.remembered, h.reloads, h.version⟩
  | poll => exact h.poll
  | subscribe l => exact ⟨h.reads, h.remembered, h.reloads, h.version⟩
  | unsubscribe id => exact ⟨h.reads, h.remembered, h.reloads, h.version⟩

theorem Agrees.foldl (h : Agrees path d) (deeds : List Deed) :
    Agrees path (deeds.foldl Duty.perform d) := by
  induction deeds generalizing d with
  | nil => exact h
  | cons deed deeds ih => exact ih (h.perform deed)

/-- Whatever becomes of the plan file and of the listeners, the watcher has published once for each
poll that has found an accepted plan under a new time, and the next poll will do the same. -/
theorem publishes_once (fs : Files) (path : Bytes) (intervalMs : Int) (plan : Plan α)
    (deeds : List Deed) :
    let d := deeds.foldl perform (begin fs path intervalMs plan)
    Agrees path d ∧ Answers d.watcher d.files (lastTime d.looks) (d.watcher.poll d.files).1
      (d.watcher.poll d.files).2.1 := by
  intro d
  have h : Agrees path d := (agrees_begin fs path intervalMs plan).foldl deeds
  exact ⟨h, h.remembered ▸ (polls d.watcher d.files).answers⟩

def breaksAt (version : Nat) (message : Bytes) : Listener :=
  fun v => if v = version then some message else none

/-- A listener that breaks down on the new plan keeps the poll from counting it. -/
theorem exists_uncounted : ∃ plan plan' : Plan Rat,
    let d := [Deed.subscribe (breaksAt 2 (utf8 "boom")), .edit (.write planPath (planText 3) 1),
      .poll].foldl perform (begin planFolder planPath 1000 plan)
    d.files.Holds planPath plan' ∧ plan.workers = 2 ∧ plan'.workers = 3 ∧
      d.watcher.channel.current = plan' ∧ d.watcher.channel.version = 2 ∧
        d.watcher.reloads = 0 ∧ d.findings.count .reloaded = 0 := by
  obtain ⟨plan, hplan, -⟩ := exists_comes_load
  obtain ⟨plan', hplan', hp⟩ := exists_holds_edited
  refine ⟨plan, plan', ?_⟩
  intro d
  let w := ((begin planFolder planPath 1000 plan).perform
    (.subscribe (breaksAt 2 (utf8 "boom")))).watcher
  have hpoll := polls w (Edit.applyAll planFolder moreWorkers)
  have hnew : IsNew (Edit.applyAll planFolder moreWorkers) w.path w.remembered plan' := by
    have hr : w.remembered = some 0 := time_planFolder
    refine ⟨?_, ?_, hp⟩
    · exact time_edited.symm ▸ nofun
    · rw [hr]
      exact time_edited.symm ▸ nofun
  have hbroken := hpoll.isBroken_iff.mpr ⟨⟨plan', hnew⟩, nofun⟩
  have hne : (w.poll (Edit.applyAll planFolder moreWorkers)).2.1 ≠ .reloaded := fun heq => by
    rw [heq] at hbroken
    cases hbroken
  obtain ⟨shown, hshown, hchannel⟩ := hpoll.channel_of_published (.inr hbroken)
  obtain rfl := hp.eq hshown
  have hreloads := hpoll.reloads
  rw [if_neg hne] at hreloads
  refine ⟨hp, hplan, hplan', ?_, ?_, hreloads, ?_⟩
  · exact congrArg Channel.current hchannel
  · exact congrArg Channel.version hchannel
  · exact List.count_cons_of_ne hne

end Duty

end LoadGenerator
