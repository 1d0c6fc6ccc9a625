import LoadGenerator.Proofs.Run.Moves
import LoadGenerator.Proofs.Run.Reach

namespace LoadGenerator.Run

open Metrics

variable {α : Type} [Scalar α]

/-- What the memory guard can do to the measurements. -/
inductive Shed (r : Recorder) : Recorder → Prop
  | kept : Shed r r
  | rotated : Shed r r.rotate
  | disabled : Shed r r.disableTracking.rotate

namespace State

structure Tends (c : Course α) (s s' : State α) : Prop where
  only : Only c .guard s s'
  records : Records s s' []
  sent : s'.sent = s.sent
  shed : Shed s.recorder s'.recorder

variable {c : Course α} {s s' : State α}

omit [Scalar α] in
theorem shed_shed (g : GuardConfig α) (a : GuardAction) (r : Recorder) :
    Shed r (Guard.shed g a r) := by
  rw [Guard.shed]
  split
  · exact .kept
  · split
    · exact .disabled
    · split
      · exact .rotated
      · exact .kept

theorem shed_take (g : GuardWatch α) (now : Int) (reading : Memory.Reading) (r : Recorder) :
    Shed r (g.take now reading r).2.1 := by
  unfold GuardWatch.take
  split
  · simp only [Guard.tick]
    split
    · exact shed_shed _ _ r
    · exact .kept
  · exact .kept

omit [Scalar α] in
theorem Tends.deeds (h : Tends c s s') : s'.deeds = s.deeds := h.records.deeds

theorem tends_takeReading (reading : Memory.Reading) : Tends c s (s.takeReading c reading) := by
  have harm (s₁ : State α) (time : Int) (h : Shed s.recorder s₁.recorder)
      (ho : Only c .guard s s₁) (hr : Records s s₁ []) (hs : s₁.sent = s.sent) :
      Tends c s (s₁.arm time .guard) := ⟨ho.trans (only_arm _ _), hr, hs, h⟩
  cases reading with
  | broken message => exact ⟨.of_eq rfl rfl rfl rfl rfl, .of_eq rfl rfl, rfl, .kept⟩
  | bytes usage =>
    exact harm _ _ (shed_take s.watch s.now (.bytes usage) s.recorder)
      (.of_eq rfl rfl rfl rfl rfl) (.of_eq rfl rfl) rfl
  | unknown => exact harm _ _ .kept (.of_eq rfl rfl rfl rfl rfl) (.of_eq rfl rfl) rfl

omit [Scalar α] in
theorem Tends.of_aside {s₁ : State α} (h : Only c .guard s s₁) (hj : Records s s₁ [])
    (hs : s₁.sent = s.sent) (hr : s₁.recorder = s.recorder) (h' : Tends c s₁ s') : Tends c s s' :=
  ⟨h.trans h'.only, hj.trans h'.records, h'.sent.trans hs, hr ▸ h'.shed⟩

theorem tends_poll (c : Course α) (s : State α) : Tends c s (s.poll c) := by
  rw [poll]
  split
  · split
    · exact ⟨Only.trans (t := { s with watchman := .waiting }) (.of_eq rfl rfl rfl rfl rfl)
        (only_arm _ _), .of_eq rfl rfl, rfl, .kept⟩
    · next reading watch _ =>
      let s₁ : State α := { s with watch }
      let plans := c.setting.newsAt (.reading s.watch.readAt.length)
      have ho : Only c .guard s (s₁.publishAll plans) :=
        Only.trans (t := s₁) (.of_eq rfl rfl rfl rfl rfl) (only_publishAll _ fun _ => mem_newsAt)
      exact .of_aside ho (records_publishAll s₁ plans) (sent_publishAll s₁ plans)
        (recorder_publishAll s₁ plans) (tends_takeReading reading)
  · exact ⟨.of_eq rfl rfl rfl rfl rfl, .of_eq rfl rfl, rfl, .kept⟩

theorem tends_resumeGuard (c : Course α) (s : State α) : Tends c s (s.resumeGuard c) := by
  rw [resumeGuard]
  split
  · rw [beginWatch]
    generalize s.watch.ensureBegun = g
    dsimp only
    let s₁ : State α := { s with watch := g.1 }.say g.2
    have ho : Only c .guard s s₁ := .of_eq rfl rfl rfl rfl rfl
    split
    · exact .of_aside ho (.of_eq rfl rfl) rfl rfl (tends_poll c s₁)
    · exact ⟨.of_eq rfl rfl rfl rfl rfl, .of_eq rfl rfl, rfl, .kept⟩
  · exact tends_poll c s
  · exact ⟨.refl s, .of_eq rfl rfl, rfl, .kept⟩

end State

/-- A wait that begins at `now` can end at `now'`. -/
def Wait.Ends (now now' : Int) : Wait → Prop
  | .nothing => False
  | .turn => now' = now
  | .alarm time => now' = max now time

theorem Wait.Ends.le {now now' : Int} {wait : Wait} (h : wait.Ends now now') : now ≤ now' := by
  cases wait with
  | nothing => exact h.elim
  | turn => exact Int.le_of_eq h.symm
  | alarm time => exact h ▸ Int.le_max_left _ _

inductive Wait.Lasts (now : Int) : Int → Wait → Prop
  | still {wait : Wait} : Lasts now now wait
  | later {now' : Int} {wait : Wait} (hw : wait ≠ .turn) (h : now ≤ now')
      (ha : ∀ time, wait = .alarm time → now' ≤ max now time) : Lasts now now' wait

namespace State

/-- Actor `a` is about to go on in state `s₁`, which is `s` after the end of its wait. -/
structure Turn (a : Actor) (s s₁ : State α) : Prop where
  channel : s₁.channel = s.channel
  workers : s₁.workers = s.workers
  watch : s₁.watch = s.watch
  recorder : s₁.recorder = s.recorder
  sent : s₁.sent = s.sent
  journal : s₁.journal = s.journal
  inOrder : s₁.InOrder
  ready : ∀ task ∈ s.ready, task ≠ .resume a → task ∈ s₁.ready
  self : ∀ {i w wait}, a = .worker i → Standing s i w wait →
    wait.Ends s.now s₁.now ∧ Standing s₁ i w .nothing
  other : ∀ {j w wait}, a ≠ .worker j → Standing s j w wait →
    wait.Lasts s.now s₁.now ∧ Standing s₁ j w wait

section

omit [Scalar α]

variable {i j : Nat} {w : Worker α} {wait : Wait} {a : Actor}

theorem Turn.deeds {s₁ : State α} (h : Turn a s s₁) : s₁.deeds = s.deeds := by
  rw [State.deeds, h.journal, State.deeds]

theorem Standing.called {pre rest : List Task} (h : s.ready = pre ++ .resume (.worker i) :: rest)
    (hs : Standing s i w wait) :
    wait = .turn ∧ Standing { s with ready := pre ++ rest } i w .nothing := by
  have hc : (pre ++ rest).count (.resume (.worker i)) + 1 = wait.calls := by
    rw [← hs.calls, State.calls, h, List.count_append, List.count_append, List.count_cons_self,
      Nat.add_assoc]
  cases wait with
  | turn => exact ⟨rfl, hs.worker, hs.alarms, Nat.succ.inj hc⟩
  | nothing => simp [Wait.calls] at hc
  | alarm time => simp [Wait.calls] at hc

theorem Standing.rung {t : Timer} {pre rest : List Timer} (ht : s.timers = pre ++ t :: rest)
    (now : Int) (hj : t.actor = .worker i) (hs : Standing s i w wait) :
    wait = .alarm t.time ∧ Standing { s with now, timers := pre ++ rest } i w .nothing := by
  let times (ts : List Timer) : List Int := (ts.filter (·.actor = .worker i)).map (·.time)
  have ha : times pre ++ t.time :: times rest = wait.alarms := by
    rw [← hs.alarms, State.alarms, ht, List.filter_append,
      List.filter_cons_of_pos (by simpa using hj), List.map_append, List.map_cons]
  cases wait with
  | alarm time =>
    obtain ⟨hpre, htime, hrest⟩ : times pre = [] ∧ t.time = time ∧ times rest = [] := by
      simpa [List.append_eq_singleton_iff, Wait.alarms] using ha
    refine ⟨htime ▸ rfl, hs.worker, ?_, hs.calls⟩
    rw [State.alarms, List.filter_append, List.map_append]
    exact List.append_eq_nil_iff.mpr ⟨hpre, hrest⟩
  | nothing => simp [Wait.alarms] at ha
  | turn => simp [Wait.alarms] at ha

theorem Standing.rung_of_ne {t : Timer} {pre rest : List Timer} (ht : s.timers = pre ++ t :: rest)
    (now : Int) (hj : t.actor ≠ .worker j) (hs : Standing s j w wait) :
    Standing { s with now, timers := pre ++ rest } j w wait where
  worker := hs.worker
  alarms := by
    rw [← hs.alarms, State.alarms, State.alarms, ht, List.filter_append, List.filter_append,
      List.filter_cons_of_neg (by simpa using hj)]
  calls := hs.calls

theorem turn_called (ho : s.InOrder) {pre rest : List Task}
    (h : s.ready = pre ++ .resume a :: rest) : Turn a s { s with ready := pre ++ rest } where
  channel := rfl
  workers := rfl
  watch := rfl
  recorder := rfl
  sent := rfl
  journal := rfl
  inOrder := ho
  ready task ht hne := by
    rw [h] at ht
    simpa [hne] using ht
  self := by
    rintro i w wait rfl hs
    obtain ⟨rfl, h₁⟩ := hs.called h
    exact ⟨rfl, h₁⟩
  other := by
    intro j w wait hne hs
    refine ⟨.still, hs.worker, hs.alarms, ?_⟩
    rw [← hs.calls, State.calls, State.calls, h, List.count_append, List.count_append,
      List.count_cons_of_ne (by simpa using hne)]

theorem turn_rung (ho : s.InOrder) {t : Timer} {rest : List Timer} (hr : s.ready = [])
    (ht : s.timers = t :: rest) :
    Turn t.actor s { s with now := max s.now t.time, timers := rest } := by
  have ht' : s.timers = [] ++ t :: rest := ht
  have hord : (t :: rest).Pairwise fun t u => t.time ≤ u.time := ht ▸ ho
  obtain ⟨hmin, hrest⟩ := List.pairwise_cons.mp hord
  constructor
  case inOrder => exact hrest
  case ready =>
    intro task htask
    rw [hr] at htask
    cases htask
  case self =>
    intro i w wait ha hs
    obtain ⟨rfl, h₁⟩ := hs.rung ht' (max s.now t.time) ha
    exact ⟨rfl, h₁⟩
  case other =>
    -- nothing is ready, so `j` waits for an alarm, and that is no earlier than the first timer
    intro j w wait hj hs
    refine ⟨.later ?_ (Int.le_max_left _ _) ?_, hs.rung_of_ne ht' _ hj⟩
    · rintro rfl
      have hc := hs.calls
      rw [State.calls, hr] at hc
      cases hc
    · rintro time rfl
      have hmem : time ∈ s.alarms (.worker j) := by simp [hs.alarms, Wait.alarms]
      obtain ⟨u, hu, rfl⟩ := List.mem_map.mp hmem
      have hu' := (List.mem_filter.mp hu).1
      have hle : t.time ≤ u.time := by
        rw [ht] at hu'
        rcases List.mem_cons.mp hu' with rfl | hu'
        · exact Int.le_refl _
        · exact hmin u hu'
      dsimp only
      omega
  all_goals rfl

end

/-- In a step an actor goes on, or a worker is woken. -/
theorem exists_turn_or_wake (ho : s.InOrder) (h : s.step c = some s') :
    (∃ (a : Actor) (s₁ : State α), Turn a s s₁ ∧ s' = s₁.resume c a) ∨
      ∃ (i : Nat) (rest : List Task), s.ready = .wake i :: rest ∧ s' = wake { s with ready := rest } i := by
  unfold step at h
  split at h
  · next task rest hr =>
    cases h
    cases task with
    | resume a =>
      have hr' : s.ready = [] ++ .resume a :: rest := hr
      exact .inl ⟨a, _, turn_called ho hr', rfl⟩
    | wake i => exact .inr ⟨i, rest, hr, rfl⟩
  · next t rest hr ht =>
    cases h
    exact .inl ⟨t.actor, _, turn_rung ho hr ht, rfl⟩
  · cases h

end State

end LoadGenerator.Run
