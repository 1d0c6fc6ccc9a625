import LoadGenerator.Proofs.Run.Interleaving

namespace LoadGenerator.Run

open State

variable {α : Type} [Scalar α]

def Later (c : Course α) : Scene α → Scene α → Prop := Relation.ReflTransGen (Happens c)

/-- In a step, worker `i` looks at the plan that is in force, unless its time is over. -/
inductive Looks (c : Course α) (i : Nat) (s s' : State α) : Prop
  | leaves {w : Worker α} (hd : c.deadline ≤ s.now) (hw : s'.workers[i]? = some w)
      (hf : w.isFinished = true) (hp : s'.past i = s.past i)
  | looks {w : Worker α} (hw : s'.workers[i]? = some w) (he : w.edition = some s.edition)
      (hp : ∃ later delay, s'.past i = later ++ .paced i s.now s.edition delay :: s.past i)

/-- Since worker `i` stood as `w`, it has done nothing, or has begun with a look at the plan. -/
inductive Rereads (c : Course α) (i : Nat) (w : Worker α) (m m' : Scene α) : Prop
  | waits (hw : m'.state.workers[i]? = some w) (hp : m'.state.past i = m.state.past i)
  | goesOn {m₁ m₂ : Scene α} (h₁ : Later c m m₁) (hw : m₁.state.workers[i]? = some w)
      (hp : m₁.state.past i = m.state.past i) (hs : Happens c m₁ m₂)
      (hl : Looks c i m₁.state m₂.state) (h₂ : Later c m₂ m')

/-- How worker `i`, which stands as `w`, waits and hears of new plans. -/
structure Attends (c : Course α) (m : Scene α) (i : Nat) (w : Worker α) : Prop where
  /-- A worker that is parked with its timer running holds the plan in force, unless somebody is
  about to wake it. -/
  current : w.isParked = true → m.state.alarms (.worker i) ≠ [] → .wake i ∉ m.state.ready →
    i ∉ m.calls → w.edition = some m.state.edition
  undisturbed : w.isParked = false → ∀ ready,
    ({ m.state with ready } : State α).wake i = { m.state with ready }
  unshortened : w.isParked = false → ∀ time ∈ m.state.alarms (.worker i), ∀ m', Later c m m' →
    m'.state.now < time → m'.state.workers[i]? = some w ∧ m'.state.alarms (.worker i) = [time]
  rereads : w.isParked = true → ∀ m', Later c m m' → Rereads c i w m m'

section

variable {c : Course α} {channel : Channel (Plan α) Unit} {r : Metrics.Recorder} {s s₁ s' : State α}
  {m m' : Scene α} {i : Nat} {w : Worker α} {wait : Wait} {t : Trace α}

theorem Interleaved.later (h : Interleaved c channel r m) (hl : Later c m m') :
    Interleaved c channel r m' := by
  induction hl with
  | refl => exact h
  | tail _ hs ih => exact ih.step hs

theorem now_le_of_happens (hm : Attuned m) (hs : Happens c m m') : m.state.now ≤ m'.state.now := by
  cases hs with
  | elapses h => exact h
  | @performs s calls pre rest task h =>
    apply Int.le_of_eq
    cases task with
    | resume a => exact (hm.holds.only_resume (c := c) (turn_called hm.holds.inOrder h)).now.symm
    | wake j => exact (only_wake (c := c) { s with ready := pre ++ rest } j).now.symm
  | expires h ht => exact Int.le_refl _
  | announces plan => exact Int.le_refl _
  | asks => exact Int.le_refl _

omit [Scalar α] in
theorem phase_of_isParked (h : w.isParked = true) : w.phase = .parked := by
  unfold Worker.isParked at h
  split at h
  · assumption
  · cases h

theorem looks_of_moves (hp : w.phase = .parked)
    (hd : ∀ e, w.edition = some e → e.version < s.channel.version ∨ e = s.edition)
    (ht : Turn (.worker i) s s₁) (hn : s₁.now = s.now) (hm : Moves c i s₁ w t)
    (hl : Leads c i s₁ s' t) : Looks c i s s' := by
  have he : s₁.edition = s.edition := by rw [edition, ht.channel, edition]
  -- whatever it held, what it has after the look is in force
  have htaken {w' : Worker α} (h : AtHead s₁.now w w') : taken s₁ i w' = s.edition := by
    rw [← he]
    apply taken_eq
    rw [edition_of_atHead h, ht.channel, he]
    exact hd
  have hpast : s'.past i = t.events ++ s.past i := by rw [hl.past, Local.past_turn ht]
  have hw := hl.standing.worker
  cases hm with
  | begins h hf => simp [hp] at h
  | leaves h hdead => exact .leaves (hn ▸ hdead) hw rfl hpast
  | parks h hdead hed hpace =>
    rw [htaken h] at hed
    subst hed
    refine .looks hw rfl ⟨[], none, ?_⟩
    rw [hpast, hn]
    rfl
  | @starts w' h hdead e hed delayMs hpace act ha =>
    rw [htaken h] at hed
    subst hed
    rw [Trace.after, hn, List.append_assoc] at hpast
    exact .looks hw (edition_trace act _).1 ⟨_, _, hpast⟩
  | goesOn h => cases h <;> simp_all

theorem looks_or_waits (hm : Attuned m) (hs : Happens c m m') (hw : m.state.workers[i]? = some w)
    (hp : w.isParked = true) : Looks c i m.state m'.state ∨
      m'.state.workers[i]? = some w ∧ m'.state.past i = m.state.past i := by
  obtain ⟨wait, hst⟩ := hm.holds.stands i w hw
  cases affects hm hs hst.standing with
  | nothing h hpast => exact .inr ⟨h.worker, hpast⟩
  | expires ht h hpast => exact .inr ⟨h.worker, hpast⟩
  | woken hw h hpast => exact .inr ⟨h.worker, hpast⟩
  | goesOn ht hn hmoves hl =>
    have hd := (hm.told.informed i w hw).dated
    exact .inl (looks_of_moves (phase_of_isParked hp) hd ht hn hmoves hl)

theorem rereads_later (h : Interleaved c channel r m) (hw : m.state.workers[i]? = some w)
    (hp : w.isParked = true) (hl : Later c m m') : Rereads c i w m m' := by
  induction hl with
  | refl => exact .waits hw rfl
  | @tail m₁ m₂ hl hs ih =>
    cases ih with
    | waits hw₁ hp₁ =>
      rcases looks_or_waits (attuned (h.later hl)) hs hw₁ hp with hlook | ⟨hw₂, hp₂⟩
      · exact .goesOn hl hw₁ hp₁ hs hlook .refl
      · exact .waits hw₂ (hp₂.trans hp₁)
    | goesOn h₁ hw₁ hp₁ hs₁ hlook h₂ => exact .goesOn h₁ hw₁ hp₁ hs₁ hlook (h₂.tail hs)

theorem standing_later (h : Interleaved c channel r m) {time : Int}
    (hst : Standing m.state i w (.alarm time)) (hp : w.isParked = false) (hl : Later c m m')
    (hn : m'.state.now < time) : Standing m'.state i w (.alarm time) := by
  induction hl with
  | refl => exact hst
  | @tail m₁ m₂ hl hs ih =>
    have hm := attuned (h.later hl)
    -- the clock does not go back, so the timer was not due before this step either
    have hle := now_le_of_happens hm hs
    cases affects hm hs (ih (by omega)) with
    | nothing h _ => exact h
    | expires ht _ _ => omega
    | woken hw _ _ => simp [hp] at hw

/-- In every order of publishes, wake-ups, timers and turns, no worker is parked on an old plan, and
none has its other waits cut short. -/
theorem attends (h : Interleaved c channel r m) (hw : m.state.workers[i]? = some w) :
    Attends c m i w := by
  have hm := attuned h
  obtain ⟨wait, hst⟩ := hm.holds.stands i w hw
  constructor
  case current =>
    intro hp ha hready hcalls
    rcases (hm.told.informed i w hw).parked (phase_of_isParked hp) with he | hpend
    · exact he
    -- its timer is running, so it is not about to go on
    · have hturn : .resume (.worker i) ∉ m.state.ready := by
        intro hmem
        have hpos : 0 < m.state.calls (.worker i) := List.count_pos_iff.mpr hmem
        rw [hst.standing.calls] at hpos
        rw [hst.standing.alarms] at ha
        cases wait with
        | nothing => exact ha rfl
        | turn => exact ha rfl
        | alarm time => exact absurd hpos (Nat.lt_irrefl 0)
      rcases pending_owing.mp hpend with hpend | hpend
      · exact absurd hpend (not_or.mpr ⟨hready, hturn⟩)
      · exact absurd hpend hcalls
  case undisturbed =>
    intro hp ready
    have hw' : ({ m.state with ready } : State α).workers[i]? = some w := hw
    rw [State.wake, if_neg (by simp [hw', hp])]
  case unshortened =>
    intro hp time htime m' hl hn
    rw [hst.standing.alarms] at htime
    cases wait with
    | nothing => cases htime
    | turn => cases htime
    | alarm time' =>
      obtain rfl : time = time' := by simpa [Wait.alarms] using htime
      have h' := standing_later h hst.standing hp hl hn
      exact ⟨h'.worker, h'.alarms⟩
  case rereads => exact fun hp m' hl => rereads_later h hw hp hl

end

def idle : Plan Rat := planOf 1 20 (.constant 0)

def twice : State Rat :=
  ((stateAt watched (.ofPlan idle) (.create 1 false 0) 0 3).publish idle).publish idle

theorem attends_twice : ∃ (m : Scene Rat) (w : Worker Rat),
    m.state.workers[0]? = some w ∧ w.isParked = true ∧ w.parks = 2 ∧ m.state.channel.version = 3 ∧
      Attends (.ofPlan watched idle 0) m 0 w ∧ w.edition = some m.state.edition := by
  have hs : Interleaved (.ofPlan watched idle 0) (.ofPlan idle) (.create 1 false 0)
      ⟨twice.advance (.ofPlan watched idle 0) 3, []⟩ :=
    ((reachable_stateAt watched (.ofPlan idle) (.create 1 false 0) 0 3).interleaved.publish
      idle).publish idle |>.advance 3
  obtain ⟨w, hw, hp⟩ : ∃ w, (twice.advance (.ofPlan watched idle 0) 3).workers[0]? = some w ∧
      (w.isParked && w.parks == 2) = true := (Option.any_eq_true _ _).mp (by decide +kernel)
  obtain ⟨hparked, hparks⟩ : w.isParked = true ∧ w.parks = 2 := by simpa using hp
  have h := attends hs hw
  refine ⟨_, w, hw, hparked, hparks, by decide +kernel, h, h.current hparked ?_ ?_ ?_⟩
  · decide +kernel
  · decide +kernel
  · exact List.not_mem_nil

end LoadGenerator.Run
