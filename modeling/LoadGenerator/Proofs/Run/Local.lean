import LoadGenerator.Proofs.Run.Steps

namespace LoadGenerator.Run

open State

variable {α : Type}

/-- Worker `i` stands as `w`, has no more to wait for exactly if it is over, and satisfies `P`. -/
structure Stands (P : Nat → Int → Worker α → Wait → List (Event α) → Prop) (s : State α) (i : Nat)
    (w : Worker α) (wait : Wait) : Prop where
  standing : Standing s i w wait
  isOver : w.isOver = true ↔ wait = .nothing
  holds : P i s.now w wait (s.past i)

theorem past_eq (s : State α) (i : Nat) :
    s.past i = s.deeds.filter (·.worker? = some i) := by
  rw [past, deeds, List.filter_filter]
  apply List.filter_congr
  intro e _
  cases e.worker? <;> simp

section

variable {c : Course α} {i j : Nat} {s s' : State α} {t : Trace α}

theorem State.Leads.past (h : Leads c i s s' t) : s'.past i = t.events ++ s.past i := by
  rw [past_eq, h.deeds, List.filter_append, ← past_eq,
    List.filter_eq_self.mpr fun e he => by simp [h.mine e he]]

theorem State.Leads.past_of_ne (h : Leads c i s s' t) (hj : j ≠ i) : s'.past j = s.past j := by
  rw [past_eq, h.deeds, List.filter_append, ← past_eq,
    List.filter_eq_nil_iff.mpr fun e he => by simp [h.mine e he, hj.symm]]
  rfl

theorem Stands.of_only {P : Nat → Int → Worker α → Wait → List (Event α) → Prop} {a : Actor}
    {w : Worker α} {wait : Wait} (h : Stands P s j w wait) (ho : Only c a s s')
    (ha : a ≠ .worker j) (hp : s'.past j = s.past j) : Stands P s' j w wait :=
  ⟨ho.standing ha h.standing, h.isOver, by rw [ho.now, hp]; exact h.holds⟩

end

variable [Scalar α]

/-- A property of a worker that time, wake-ups and its own moves in states that satisfy `R` keep. -/
structure Local (c : Course α) (R : State α → Prop)
    (P : Nat → Int → Worker α → Wait → List (Event α) → Prop) : Prop where
  fresh : ∀ i, P i c.startedAt (.fresh c.startedAt) .turn []
  wake : ∀ {i now w time past}, w.isParked = true → P i now w (.alarm time) past →
    P i now w .turn past
  later : ∀ {i now now' w wait past}, wait ≠ .turn → now ≤ now' →
    (∀ time, wait = .alarm time → now' ≤ max now time) → P i now w wait past →
    P i now' w wait past
  move : ∀ {i s s₁ w wait t}, R s → s.workers[i]? = some w →
    Turn (.worker i) s s₁ → wait.Ends s.now s₁.now → P i s.now w wait (s.past i) →
    Moves c i s₁ w t → P i s₁.now t.worker t.wait (t.events ++ s.past i)

namespace Local

variable {c : Course α} {channel : Channel (Plan α) Unit} {r : Metrics.Recorder}
  {R : State α → Prop} {P : Nat → Int → Worker α → Wait → List (Event α) → Prop} {i j : Nat}
  {s s₁ s' : State α} {w : Worker α} {wait : Wait} {t : Trace α}

omit [Scalar α] in
theorem pause_ne_nothing (now time : Int) : Wait.pause now time ≠ .nothing := by
  rw [Wait.pause]
  split <;> simp

omit [Scalar α] in
theorem over_trace (act : Act) (job : Job α) :
    (act.trace c i s w job).worker.isOver = true ↔ (act.trace c i s w job).wait = .nothing := by
  cases act with
  | send request purpose => simp [Act.trace, Worker.isOver]
  | think ms x p => simp [Act.trace, Worker.isOver]
  | stop message => simp [Act.trace, Worker.isOver]
  | complete jar work =>
    rw [Act.trace]
    dsimp only
    split
    · simp [Worker.isOver]
    · simp [Worker.isOver, Worker.rest, pause_ne_nothing]

theorem over_of_moves (h : Moves c i s w t) : t.worker.isOver = true ↔ t.wait = .nothing := by
  cases h with
  | begins h hf => simp [Worker.isOver, pause_ne_nothing]
  | leaves h hd => simp [Worker.isOver]
  | parks h hd he hp => simp [Worker.isOver]
  | starts h hd he hp ha => exact over_trace _ _
  | goesOn h => exact over_trace _ _

structure Holds (P : Nat → Int → Worker α → Wait → List (Event α) → Prop) (s : State α) : Prop where
  inOrder : s.InOrder
  stands : ∀ i w, s.workers[i]? = some w → ∃ wait, Stands P s i w wait
  nobody : ∀ i, s.workers[i]? = none → s.past i = []

theorem standing_start (hi : i < c.workers) :
    Standing (c.start channel r) i (.fresh c.startedAt) .turn where
  worker := by simp [Course.start, hi]
  alarms := rfl
  calls := by
    have hc : (List.range c.workers).countP ((· == Task.resume (.worker i)) ∘
        fun j => Task.resume (.worker j)) = (List.range c.workers).count i := by
      apply List.countP_congr
      intro j _
      simp
    rw [State.calls, Course.start, List.count_append, List.count, List.countP_map, hc,
      List.count_range, if_pos hi]
    rfl

theorem holds_start (h : Local c R P) : Holds P (c.start channel r) where
  inOrder := List.Pairwise.nil
  stands i w hw := by
    obtain ⟨hi, rfl⟩ : i < c.workers ∧ Worker.fresh c.startedAt = w := by
      simpa [Course.start, List.getElem?_replicate] using hw
    exact ⟨.turn, standing_start hi, by simp [Worker.isOver, Worker.fresh], h.fresh i⟩
  nobody _ _ := rfl

omit [Scalar α] in
theorem past_turn {a : Actor} (ht : Turn a s s₁) (j : Nat) : s₁.past j = s.past j := by
  rw [past_eq, ht.deeds, ← past_eq]

omit [Scalar α] in
theorem Holds.self (h : Holds P s) (ht : Turn (.worker i) s s₁) (hw : s.workers[i]? = some w) :
    ∃ wait, Stands P s i w wait ∧ wait.Ends s.now s₁.now ∧ w.isOver = false ∧
      Standing s₁ i w .nothing := by
  obtain ⟨wait, hst⟩ := h.stands i w hw
  obtain ⟨he, h₁⟩ := ht.self rfl hst.standing
  refine ⟨wait, hst, he, ?_, h₁⟩
  rw [← Bool.not_eq_true, hst.isOver]
  rintro rfl
  exact he

theorem resume_nobody (ht : Turn (.worker i) s s₁) (hw : s.workers[i]? = none) :
    s₁.resume c (.worker i) = s₁ := by rw [State.resume, ht.workers, hw]

theorem Holds.exists_leads (h : Holds P s) (ht : Turn (.worker i) s s₁)
    (hw : s.workers[i]? = some w) :
    ∃ t, Moves c i s₁ w t ∧ Leads c i s₁ (s₁.resume c (.worker i)) t := by
  obtain ⟨wait, -, -, hover, h₁⟩ := h.self ht hw
  rw [State.resume, ht.workers, hw]
  exact exists_leads_resumeWorker h₁ hover

theorem Holds.only_resume (h : Holds P s) {a : Actor} (ht : Turn a s s₁) :
    Only c a s₁ (s₁.resume c a) := by
  cases a with
  | guard => exact (tends_resumeGuard c s₁).only
  | worker i =>
    cases hi : s.workers[i]? with
    | none =>
      rw [resume_nobody ht hi]
      exact .refl s₁
    | some w =>
      obtain ⟨t, -, hl⟩ := h.exists_leads (c := c) ht hi
      exact hl.only

theorem Holds.past_resume (h : Holds P s) {a : Actor} (ht : Turn a s s₁) (ha : a ≠ .worker j) :
    (s₁.resume c a).past j = s.past j := by
  rw [← past_turn ht]
  cases a with
  | guard => rw [State.resume, past_eq, (tends_resumeGuard c s₁).deeds, ← past_eq]
  | worker i =>
    cases hi : s.workers[i]? with
    | none => rw [resume_nobody ht hi]
    | some w =>
      obtain ⟨t, -, hl⟩ := h.exists_leads (c := c) ht hi
      exact hl.past_of_ne fun h => ha (h ▸ rfl)

theorem stands_turn (h : Local c R P) {a : Actor} (ht : Turn a s s₁) (ha : a ≠ .worker j)
    (hst : Stands P s j w wait) : Stands P s₁ j w wait := by
  obtain ⟨hlasts, h₁⟩ := ht.other ha hst.standing
  refine ⟨h₁, hst.isOver, ?_⟩
  rw [past_turn ht]
  have hp := hst.holds
  generalize s₁.now = now' at hlasts
  cases hlasts with
  | still => exact hp
  | later hw hle halarm => exact h.later hw hle halarm hp

theorem stands_self (h : Local c R P) (hs : R s) (hh : Holds P s) (ht : Turn (.worker i) s s₁)
    (hw : s.workers[i]? = some w) : ∃ v wait, Stands P (s₁.resume c (.worker i)) i v wait := by
  obtain ⟨wait, hst, he, -, -⟩ := hh.self ht hw
  obtain ⟨t, hm, hl⟩ := hh.exists_leads (c := c) ht hw
  refine ⟨t.worker, t.wait, hl.standing, over_of_moves hm, ?_⟩
  rw [hl.only.now, hl.past, past_turn ht]
  exact h.move hs hw ht he hst.holds hm

theorem holds_turn (h : Local c R P) (hs : R s) (hh : Holds P s) {a : Actor} (ht : Turn a s s₁) :
    Holds P (s₁.resume c a) := by
  have ho : Only c a s₁ (s₁.resume c a) := hh.only_resume ht
  have hother {j : Nat} (ha : a ≠ .worker j) : (s₁.resume c a).workers[j]? = s.workers[j]? := by
    rw [ho.worker j ha, ht.workers]
  refine ⟨ho.inOrder ht.inOrder, fun j v hj => ?_, fun j hj => ?_⟩
  · by_cases ha : a = .worker j
    · subst ha
      cases hw : s.workers[j]? with
      | none =>
        rw [resume_nobody ht hw, ht.workers, hw] at hj
        cases hj
      | some w =>
        obtain ⟨v', wait, hst⟩ := h.stands_self hs hh ht hw
        cases hst.standing.worker.symm.trans hj
        exact ⟨wait, hst⟩
    · obtain ⟨wait, hst⟩ := hh.stands j v ((hother ha).symm.trans hj)
      have hpast : (s₁.resume c a).past j = s₁.past j :=
        (hh.past_resume ht ha).trans (past_turn ht j).symm
      exact ⟨wait, (h.stands_turn ht ha hst).of_only ho ha hpast⟩
  · by_cases ha : a = .worker j
    · subst ha
      cases hw : s.workers[j]? with
      | none =>
        rw [resume_nobody ht hw, past_turn ht]
        exact hh.nobody j hw
      | some w =>
        obtain ⟨v', wait, hst⟩ := h.stands_self hs hh ht hw
        cases hst.standing.worker.symm.trans hj
    · rw [hh.past_resume ht ha]
      exact hh.nobody j ((hother ha).symm.trans hj)

omit [Scalar α] in
theorem past_cancel (s : State α) (a : Actor) (j : Nat) : (s.cancel a).past j = s.past j := by
  rw [State.cancel]
  split <;> rfl

omit [Scalar α] in
theorem workers_cancel (s : State α) (a : Actor) : (s.cancel a).workers = s.workers := by
  rw [State.cancel]
  split <;> rfl

theorem stands_cancel (h : Local c R P) (hst : Stands P s i w wait)
    (hw : w.isParked = true) : ∃ wait', Stands P (s.cancel (.worker i)) i w wait' := by
  cases wait with
  | alarm time =>
    have hover : w.isOver = false := by
      rw [← Bool.not_eq_true, hst.isOver]
      simp
    refine ⟨.turn, hst.standing.cancel, by simp [hover], ?_⟩
    rw [(only_cancel (c := c) _).now, past_cancel]
    exact h.wake hw hst.holds
  | nothing =>
    rw [cancel_eq_self hst.standing rfl]
    exact ⟨_, hst⟩
  | turn =>
    -- it has been woken before
    rw [cancel_eq_self hst.standing rfl]
    exact ⟨_, hst⟩

theorem holds_cancel (h : Local c R P) (hh : Holds P s)
    (hp : s.workers[i]?.any Worker.isParked = true) : Holds P (s.cancel (.worker i)) := by
  have ho : Only c (.worker i) s (s.cancel (.worker i)) := only_cancel _
  refine ⟨ho.inOrder hh.inOrder, fun j v hj => ?_, fun j hj => ?_⟩
  · rw [workers_cancel] at hj
    obtain ⟨wait, hst⟩ := hh.stands j v hj
    by_cases hij : j = i
    · subst hij
      exact h.stands_cancel hst (by simpa [hj] using hp)
    · have hne : Actor.worker i ≠ .worker j := fun h => hij (Actor.worker.inj h).symm
      exact ⟨wait, hst.of_only ho hne (past_cancel _ _ _)⟩
  · rw [workers_cancel] at hj
    exact (past_cancel _ _ _).trans (hh.nobody j hj)

theorem holds_woken (h : Local c R P) (hh : Holds P s) {i : Nat} {pre rest : List Task}
    (hr : s.ready = pre ++ .wake i :: rest) :
    Holds P (({ s with ready := pre ++ rest } : State α).wake i) := by
  have hrest : Holds P { s with ready := pre ++ rest } := by
    refine ⟨hh.inOrder, fun j w hw => ?_, hh.nobody⟩
    obtain ⟨wait, hst⟩ := hh.stands j w hw
    refine ⟨wait, ⟨hst.standing.worker, hst.standing.alarms, ?_⟩, hst.isOver, hst.holds⟩
    rw [← hst.standing.calls, State.calls, State.calls, hr, List.count_append, List.count_append,
      List.count_cons_of_ne (by simp)]
  rw [State.wake]
  split
  · next hp => exact h.holds_cancel hrest hp
  · exact hrest

omit [Scalar α] in
theorem Holds.exists_stands (h : Holds P s) {e : Event α} (he : e ∈ s.journal)
    (hi : e.worker? = some i) : ∃ w wait, Stands P s i w wait ∧ e ∈ s.past i := by
  have hp : e ∈ s.past i := List.mem_filter.mpr ⟨he, by simp [hi]⟩
  cases hw : s.workers[i]? with
  | none =>
    rw [h.nobody i hw] at hp
    cases hp
  | some w =>
    obtain ⟨wait, hs⟩ := h.stands i w hw
    exact ⟨w, wait, hs, hp⟩

omit [Scalar α] in
theorem Holds.isOver (h : Holds P s) (hover : s.isOver = true) (hw : s.workers[i]? = some w) :
    w.isOver = true ∧ P i s.now w .nothing (s.past i) := by
  obtain ⟨wait, hs⟩ := h.stands i w hw
  obtain ⟨hr, ht⟩ : s.ready = [] ∧ s.timers = [] := by simpa [State.isOver] using hover
  have hwait : wait = .nothing := by
    have ha := hs.standing.alarms
    have hc := hs.standing.calls
    rw [State.alarms, ht] at ha
    rw [State.calls, hr] at hc
    cases wait with
    | nothing => rfl
    | turn => cases hc
    | alarm time => cases ha
  subst hwait
  exact ⟨hs.isOver.mpr rfl, hs.holds⟩

theorem holds (h : Local c (Reachable c channel r) P) (hs : Reachable c channel r s) : Holds P s := by
  induction hs with
  | start => exact h.holds_start
  | step hs hstep ih =>
    obtain ⟨a, s₁, ht, rfl⟩ | ⟨i, rest, hr, rfl⟩ := exists_turn_or_wake ih.inOrder hstep
    · exact h.holds_turn hs ih ht
    · have hr' : _ = [] ++ .wake i :: rest := hr
      exact h.holds_woken ih hr'

end Local

end LoadGenerator.Run
