import LoadGenerator.Proofs.Run.Parking

namespace LoadGenerator.Run

open State

variable {α : Type}

namespace State

/-- A publish begins: the channel has the plan, and no worker has been told yet. -/
def announce (s : State α) (plan : Plan α) : State α :=
  { s with
    channel := (s.channel.publish plan).1
    updates := s.updates + s.channel.listeners.length }.note
      (.published s.now (s.channel.version + 1) plan)

def callees (s : State α) : List Nat :=
  s.channel.listeners.flatMap fun _ => List.range s.workers.length

theorem publish_eq (s : State α) (plan : Plan α) :
    s.publish plan = (s.announce plan).owing s.callees := by
  simp only [publish, announce, Channel.publish, owing, callees, note, List.length_map,
    List.flatMap_map, List.map_flatMap]

end State

/-- A moment at which a publish may be in progress. -/
structure Scene (α : Type) where
  state : State α
  /-- Whom that publish has still to ask to wake up. -/
  calls : List Nat

variable [Scalar α]

/-- What can happen next. No more is known of the clock than that it does not go back. -/
inductive Happens (c : Course α) : Scene α → Scene α → Prop
  | elapses {s : State α} {calls : List Nat} {now : Int} (h : s.now ≤ now) :
      Happens c ⟨s, calls⟩ ⟨{ s with now }, calls⟩
  | performs {s : State α} {calls : List Nat} {pre rest : List Task} {task : Task}
      (h : s.ready = pre ++ task :: rest) :
      Happens c ⟨s, calls⟩ ⟨({ s with ready := pre ++ rest } : State α).perform c task, calls⟩
  | expires {s : State α} {calls : List Nat} {pre rest : List Timer} {t : Timer}
      (h : s.timers = pre ++ t :: rest) (ht : t.time ≤ s.now) :
      Happens c ⟨s, calls⟩
        ⟨({ s with timers := pre ++ rest } : State α).post (.resume t.actor), calls⟩
  | announces {s : State α} (plan : Plan α) : Happens c ⟨s, []⟩ ⟨s.announce plan, s.callees⟩
  | asks {s : State α} {i : Nat} {calls : List Nat} :
      Happens c ⟨s, i :: calls⟩ ⟨s.post (.wake i), calls⟩

inductive Interleaved (c : Course α) (channel : Channel (Plan α) Unit) (r : Metrics.Recorder) :
    Scene α → Prop
  | start : Interleaved c channel r ⟨c.start channel r, []⟩
  | step {m m' : Scene α} (h : Interleaved c channel r m) (hs : Happens c m m') :
      Interleaved c channel r m'

variable {c : Course α} {channel : Channel (Plan α) Unit} {r : Metrics.Recorder} {s s' : State α}
  {m m' : Scene α} {i : Nat} {w : Worker α} {wait : Wait}

theorem kept_rings {P : Scene α → Prop} (hP : ∀ {m m'}, P m → Happens c m m' → P m')
    (h : P ⟨s, []⟩) (hr : s.ready = []) {t : Timer} {rest : List Timer}
    (ht : s.timers = t :: rest) :
    P ⟨({ s with now := max s.now t.time, timers := rest } : State α).resume c t.actor, []⟩ := by
  let s₁ : State α := { s with now := max s.now t.time }
  let s₂ : State α := ({ s₁ with timers := rest } : State α).post (.resume t.actor)
  have h₁ : P ⟨s₁, []⟩ := hP h (.elapses (Int.le_max_left _ _))
  have h₂ : P ⟨s₂, []⟩ := by
    have ht' : s₁.timers = [] ++ t :: rest := ht
    exact hP h₁ (.expires ht' (Int.le_max_right _ _))
  have hr₂ : s₂.ready = [] ++ .resume t.actor :: [] := by simp [s₂, s₁, post, hr]
  have hs : ({ s₂ with ready := [] ++ [] } : State α) =
      { s with now := max s.now t.time, timers := rest } := by
    have hnil : ([] ++ [] : List Task) = s.ready := hr.symm
    rw [hnil]
    rfl
  rw [← hs]
  exact hP h₂ (.performs hr₂)

/-- A step on a clock of its own, where ready tasks come first and in their order, keeps whatever
all that can happen keeps. -/
theorem kept_stepped {P : Scene α → Prop} (hP : ∀ {m m'}, P m → Happens c m m' → P m')
    (h : P ⟨s, []⟩) (hs : s.step c = some s') : P ⟨s', []⟩ := by
  unfold State.step at hs
  split at hs
  · next task rest hr =>
    cases hs
    have hr' : s.ready = [] ++ task :: rest := hr
    exact hP h (.performs hr')
  · next t rest hr ht =>
    cases hs
    exact kept_rings hP h hr ht
  · cases hs

theorem kept_advance {P : Scene α → Prop} (hP : ∀ {m m'}, P m → Happens c m m' → P m')
    (h : P ⟨s, []⟩) (n : Nat) : P ⟨s.advance c n, []⟩ := by
  induction n generalizing s with
  | zero => exact h
  | succ n ih =>
    rw [State.advance]
    cases hs : s.step c with
    | none => exact h
    | some s' => exact ih (kept_stepped hP h hs)

theorem Reachable.interleaved (h : Reachable c channel r s) : Interleaved c channel r ⟨s, []⟩ := by
  induction h with
  | start => exact .start
  | step h hs ih => exact kept_stepped .step ih hs

theorem Interleaved.advance (h : Interleaved c channel r ⟨s, []⟩) (n : Nat) :
    Interleaved c channel r ⟨s.advance c n, []⟩ := kept_advance .step h n

theorem kept_asksAll {P : Scene α → Prop} (hP : ∀ {m m'}, P m → Happens c m m' → P m')
    {ids : List Nat} (h : P ⟨s, ids⟩) : P ⟨s.owing ids, []⟩ := by
  induction ids generalizing s with
  | nil =>
    rw [owing_nil]
    exact h
  | cons i ids ih =>
    have hpost : (s.post (.wake i)).owing ids = s.owing (i :: ids) := by
      simp only [owing, post, List.map_cons, List.append_assoc, List.singleton_append]
    rw [← hpost]
    exact ih (hP h .asks)

theorem kept_publish {P : Scene α → Prop} (hP : ∀ {m m'}, P m → Happens c m m' → P m')
    (h : P ⟨s, []⟩) (plan : Plan α) : P ⟨s.publish plan, []⟩ := by
  rw [publish_eq]
  exact kept_asksAll hP (hP h (.announces plan))

theorem Interleaved.publish (h : Interleaved c channel r ⟨s, []⟩) (plan : Plan α) :
    Interleaved c channel r ⟨s.publish plan, []⟩ := kept_publish .step h plan

/-- What a step can mean for worker `i`, which stands as `w` and waits for `wait`. -/
inductive Affects (c : Course α) (s s' : State α) (i : Nat) (w : Worker α) : Wait → Prop
  | nothing {wait : Wait} (h : Standing s' i w wait) (hp : s'.past i = s.past i) :
      Affects c s s' i w wait
  | expires {time : Int} (ht : time ≤ s.now) (h : Standing s' i w .turn)
      (hp : s'.past i = s.past i) : Affects c s s' i w (.alarm time)
  | woken {time : Int} (hw : w.isParked = true) (h : Standing s' i w .turn)
      (hp : s'.past i = s.past i) : Affects c s s' i w (.alarm time)
  | goesOn {s₁ : State α} {t : Trace α} (ht : Turn (.worker i) s s₁) (hn : s₁.now = s.now)
      (hm : Moves c i s₁ w t) (hl : Leads c i s₁ s' t) : Affects c s s' i w .turn

/-- Each worker waits for one thing, unless it is over, and is told of new plans. -/
structure Attuned (m : Scene α) : Prop where
  holds : Local.Holds (fun _ _ _ _ _ => True) m.state
  told : Told m.state m.calls

theorem local_true (c : Course α) : Local c (fun _ => True) fun _ _ _ _ _ => True :=
  ⟨fun _ => trivial, fun _ _ => trivial, fun _ _ _ _ => trivial, fun _ _ _ _ _ _ => trivial⟩

theorem affects_resume (hh : Local.Holds (fun _ _ _ _ _ => True) s) (hst : Standing s i w wait)
    {a : Actor} {pre rest : List Task} (hr : s.ready = pre ++ .resume a :: rest) :
    Affects c s (({ s with ready := pre ++ rest } : State α).resume c a) i w wait := by
  have ht := turn_called hh.inOrder hr
  by_cases ha : a = .worker i
  · subst ha
    obtain ⟨rfl, -⟩ := hst.called hr
    obtain ⟨t, hm, hl⟩ := hh.exists_leads (c := c) ht hst.worker
    exact .goesOn ht rfl hm hl
  · have h₁ := (ht.other ha hst).2
    exact .nothing ((hh.only_resume ht).standing ha h₁) (hh.past_resume ht ha)

omit [Scalar α] in
theorem only_wake (s : State α) (j : Nat) : Only c (.worker j) s (s.wake j) := by
  rw [State.wake]
  split
  · exact only_cancel _
  · exact .refl s

theorem affects_wake (hst : Standing s i w wait) {j : Nat} {pre rest : List Task}
    (hr : s.ready = pre ++ .wake j :: rest) :
    Affects c s (({ s with ready := pre ++ rest } : State α).wake j) i w wait := by
  let s₁ : State α := { s with ready := pre ++ rest }
  have h₁ : Standing s₁ i w wait := by
    refine ⟨hst.worker, hst.alarms, ?_⟩
    rw [← hst.calls, calls, calls, hr]
    simp [s₁, List.count_append]
  show Affects c s (s₁.wake j) i w wait
  rw [State.wake]
  split
  · next hp =>
    have hpast : (s₁.cancel (.worker j)).past i = s.past i := Local.past_cancel s₁ _ i
    -- the timer of a parked worker is cancelled: its own, or that of another
    by_cases hij : j = i
    · subst hij
      have hw : w.isParked = true := by simpa [h₁.worker] using hp
      cases wait with
      | alarm time => exact .woken hw h₁.cancel hpast
      | nothing =>
        rw [cancel_eq_self h₁ rfl]
        exact .nothing h₁ rfl
      | turn =>
        rw [cancel_eq_self h₁ rfl]
        exact .nothing h₁ rfl
    · have hne : Actor.worker j ≠ .worker i := fun h => hij (Actor.worker.inj h)
      exact .nothing ((only_cancel (c := c) _).standing hne h₁) hpast
  · exact .nothing h₁ rfl

theorem affects_expiry (hst : Standing s i w wait) {t : Timer} {pre rest : List Timer}
    (ht : s.timers = pre ++ t :: rest) (hle : t.time ≤ s.now) :
    Affects c s (({ s with timers := pre ++ rest } : State α).post (.resume t.actor)) i w wait := by
  by_cases ha : t.actor = .worker i
  · obtain ⟨rfl, h₁⟩ := hst.rung ht s.now ha
    rw [ha]
    exact .expires hle h₁.post rfl
  · have h₁ := hst.rung_of_ne ht s.now ha
    exact .nothing ((only_post (c := c) _).standing ha h₁) rfl

theorem affects (hm : Attuned m) (hs : Happens c m m') (hst : Standing m.state i w wait) :
    Affects c m.state m'.state i w wait := by
  cases hs with
  | elapses h => exact .nothing ⟨hst.worker, hst.alarms, hst.calls⟩ rfl
  | @performs s calls pre rest task h =>
    cases task with
    | resume a => exact affects_resume hm.holds hst h
    | wake j => exact affects_wake hst h
  | expires h ht => exact affects_expiry hst h ht
  | announces plan => exact .nothing ⟨hst.worker, hst.alarms, hst.calls⟩ rfl
  | @asks s j calls =>
    refine .nothing ⟨hst.worker, hst.alarms, ?_⟩ rfl
    rw [← hst.calls, State.calls, State.calls, post]
    simp [List.count_append]

theorem Affects.stands (h : Affects c s s' i w wait) (ho : w.isOver = true ↔ wait = .nothing) :
    ∃ w' wait', Standing s' i w' wait' ∧ (w'.isOver = true ↔ wait' = .nothing) := by
  cases h with
  | nothing h hp => exact ⟨w, wait, h, ho⟩
  | expires ht h hp => exact ⟨w, .turn, h, by simpa using ho⟩
  | woken hw h hp => exact ⟨w, .turn, h, by simpa using ho⟩
  | goesOn ht hn hm hl => exact ⟨_, _, hl.standing, Local.over_of_moves hm⟩

theorem holds_idle (hh : Local.Holds (fun _ _ _ _ _ => True) s) (ho : s'.InOrder)
    (hw : s'.workers = s.workers) (hp : ∀ j, s'.past j = s.past j)
    (ha : ∀ j w wait, Standing s j w wait → Affects c s s' j w wait) :
    Local.Holds (fun _ _ _ _ _ => True) s' := by
  refine ⟨ho, fun j w hj => ?_, fun j hj => (hp j).trans (hh.nobody j (hw ▸ hj))⟩
  obtain ⟨wait, hst⟩ := hh.stands j w (hw ▸ hj)
  obtain ⟨w', wait', h', ho'⟩ := (ha j w wait hst.standing).stands hst.isOver
  cases h'.worker.symm.trans hj
  exact ⟨wait', h', ho', trivial⟩

section

omit [Scalar α]

theorem Told.of_pending {ids ids' : List Nat} (h : Told s ids) (hc : s'.channel = s.channel)
    (hw : s'.workers = s.workers)
    (hp : ∀ j, Pending (s.owing ids) j → Pending (s'.owing ids') j) : Told s' ids' :=
  ⟨hc ▸ h.listeners, fun j w hj => (h.informed j w (hw ▸ hj)).mono hc fun _ => hp j⟩

theorem told_announce (h : Told s []) (plan : Plan α) : Told (s.announce plan) s.callees := by
  refine ⟨h.listeners, fun j w hj => ⟨fun e he => .inl ?_, fun _ => .inr ?_⟩⟩
  · show e.version < s.channel.version + 1
    rcases (h.informed j w hj).dated e he with hlt | rfl
    · exact Nat.lt_succ_of_lt hlt
    · exact Nat.lt_succ_self _
  · obtain ⟨l, ls, hl⟩ := List.exists_cons_of_ne_nil h.listeners
    have hj' : j < s.workers.length := (List.getElem?_eq_some_iff.mp hj).1
    exact pending_owing.mpr (.inr (by simp [callees, hl, hj']))

theorem told_ask {ids : List Nat} (h : Told s (i :: ids)) : Told (s.post (.wake i)) ids := by
  refine h.of_pending rfl rfl fun j hj => ?_
  simp only [Pending, owing, post] at hj ⊢
  simpa using hj

end

theorem attuned_step (hm : Attuned m) (hs : Happens c m m') : Attuned m' := by
  have ha (j : Nat) (w : Worker α) (wait : Wait) (hst : Standing m.state j w wait) :
      Affects c m.state m'.state j w wait := affects hm hs hst
  obtain ⟨hh, ht⟩ := hm
  cases hs with
  | elapses h =>
    exact ⟨holds_idle hh hh.inOrder rfl (fun _ => rfl) ha, ht.of_pending rfl rfl fun _ h => h⟩
  | @performs s calls pre rest task h =>
    cases task with
    | resume a =>
      have hturn := turn_called hh.inOrder h
      exact ⟨(local_true c).holds_turn trivial hh hturn, told_turn ht hh hturn⟩
    | wake j => exact ⟨(local_true c).holds_woken hh h, told_woken ht hh h⟩
  | @expires s calls pre rest t h hle =>
    have ho : State.InOrder { s with timers := pre ++ rest } := by
      have hsub : List.Sublist (pre ++ rest) s.timers := by
        rw [h]
        exact (List.sublist_cons_self t rest).append_left pre
      exact hh.inOrder.sublist hsub
    -- a task is added and none is taken, so whoever was to go on still is
    refine ⟨holds_idle hh ho rfl (fun _ => rfl) ha, ht.of_pending rfl rfl fun j hj => ?_⟩
    rw [pending_owing] at hj ⊢
    exact hj.imp_left fun hp => hp.imp (List.mem_append_left _) (List.mem_append_left _)
  | announces plan =>
    exact ⟨holds_idle hh hh.inOrder rfl (fun _ => rfl) ha, told_announce ht plan⟩
  | asks => exact ⟨holds_idle hh hh.inOrder rfl (fun _ => rfl) ha, told_ask ht⟩

theorem attuned (h : Interleaved c channel r m) : Attuned m := by
  induction h with
  | start => exact ⟨(local_true c).holds_start, (news (.start (c := c) (r := r))).told⟩
  | step h hs ih => exact attuned_step ih hs

theorem length_of_happens (hm : Attuned m) (hs : Happens c m m') :
    m'.state.workers.length = m.state.workers.length := by
  cases hs with
  | elapses h => rfl
  | @performs s calls pre rest task h =>
    cases task with
    | resume a => exact (hm.holds.only_resume (c := c) (turn_called hm.holds.inOrder h)).count
    | wake j => exact (only_wake (c := c) { s with ready := pre ++ rest } j).count
  | expires h ht => rfl
  | announces plan => rfl
  | asks => rfl

theorem Interleaved.length_workers (h : Interleaved c channel r m) :
    m.state.workers.length = c.workers := by
  induction h with
  | start => simp [Course.start]
  | step h hs ih => exact (length_of_happens (attuned h) hs).trans ih

end LoadGenerator.Run
