import LoadGenerator.Proofs.Load.Rise
import LoadGenerator.Proofs.Run.Schedule

namespace LoadGenerator.Run

open State

variable {α : Type}

def Pending (s : State α) (i : Nat) : Prop := .wake i ∈ s.ready ∨ .resume (.worker i) ∈ s.ready

structure Informed (s : State α) (i : Nat) (w : Worker α) : Prop where
  dated : ∀ e, w.edition = some e → e.version < s.channel.version ∨ e = s.edition
  parked : w.phase = .parked → w.edition = some s.edition ∨ Pending s i

/-- The state in which the workers `ids` have been asked to wake up. -/
def State.owing (s : State α) (ids : List Nat) : State α :=
  { s with ready := s.ready ++ ids.map .wake }

/-- All workers are told of new plans, once the workers `ids` have been asked to wake up. -/
structure Told (s : State α) (ids : List Nat) : Prop where
  listeners : s.channel.listeners ≠ []
  informed : ∀ i w, s.workers[i]? = some w → Informed (s.owing ids) i w

section

variable {c : Course α} {a : Actor} {s s' : State α} {ids : List Nat} {i : Nat} {w : Worker α}

theorem owing_nil (s : State α) : s.owing [] = s := by simp [owing]

theorem pending_owing : Pending (s.owing ids) i ↔ Pending s i ∨ i ∈ ids := by
  simp only [Pending, owing, List.mem_append, List.mem_map, Task.wake.injEq, exists_eq_right,
    reduceCtorEq, and_false, exists_false, or_false]
  exact or_right_comm

theorem pending_of_only (h : Pending s i) (ho : Only c a s s') (ha : a ≠ .worker i) :
    Pending s' i := by
  rcases h with h | h
  · exact .inl (ho.wakes i h)
  · have hc : s'.calls (.worker i) = s.calls (.worker i) := ho.calls _ ha.symm
    have hpos : 0 < s'.calls (.worker i) := hc ▸ List.count_pos_iff.mpr h
    exact .inr (List.count_pos_iff.mp hpos)

theorem Informed.mono (h : Informed s i w) (hc : s'.channel = s.channel)
    (hp : w.phase = .parked → Pending s i → Pending s' i) : Informed s' i w := by
  have he : s'.edition = s.edition := by rw [edition, hc, edition]
  refine ⟨by rw [hc, he]; exact h.dated, fun hw => ?_⟩
  rw [he]
  exact (h.parked hw).imp_right (hp hw)

theorem Informed.of_only (ho : Only c a s s') (hl : s.channel.listeners ≠ [])
    (hi : i < s.workers.length)
    (hd : ∀ e, w.edition = some e → e.version < s.channel.version ∨ e = s.edition)
    (hp : w.phase = .parked → w.edition = some s.edition ∨ Pending (s'.owing ids) i) :
    Informed (s'.owing ids) i w := by
  rcases ho.news with he | ⟨hlt, hw⟩
  · have hv : s'.channel.version = s.channel.version := congrArg Edition.version he
    exact ⟨he ▸ hv ▸ hd, he ▸ hp⟩
  · refine ⟨fun e h => .inl ?_, fun _ => .inr (pending_owing.mpr (.inl (.inl (hw hl i hi))))⟩
    rcases hd e h with hlt' | rfl
    · exact Nat.lt_trans hlt' hlt
    · exact hlt

theorem Informed.only (h : Informed (s.owing ids) i w) (ho : Only c a s s') (ha : a ≠ .worker i)
    (hl : s.channel.listeners ≠ []) (hi : i < s.workers.length) : Informed (s'.owing ids) i w := by
  refine .of_only ho hl hi h.dated fun hw => (h.parked hw).imp_right fun hp => ?_
  exact pending_owing.mpr ((pending_owing.mp hp).imp_left fun hp => pending_of_only hp ho ha)

theorem edition_of_atHead {now : Int} {w' : Worker α} (h : AtHead now w w') :
    w'.edition = w.edition := by
  cases h <;> rfl

theorem edition_trace (act : Act) (job : Job α) :
    (act.trace c i s w job).worker.edition = w.edition ∧
      (act.trace c i s w job).worker.phase ≠ .parked := by
  cases act with
  | send request purpose => simp [Act.trace]
  | think ms x p => simp [Act.trace]
  | stop message => simp [Act.trace]
  | complete jar work =>
    rw [Act.trace]
    dsimp only
    split
    · simp
    · simp [Worker.rest, Worker.count]

end

variable [Scalar α] {c : Course α} {channel : Channel (Plan α) Unit} {r : Metrics.Recorder}
  {plan : Plan α} {s s₁ s' : State α} {ids : List Nat} {i : Nat} {w : Worker α} {t : Trace α}

theorem taken_eq (h : ∀ e, w.edition = some e → e.version < s.channel.version ∨ e = s.edition) :
    taken s i w = s.edition := by
  unfold taken refresh
  cases he : w.edition with
  | none => rfl
  | some e =>
    dsimp only
    split
    · next hv =>
      rcases h e he with hlt | rfl
      · omega
      · rfl
    · rfl

theorem edition_of_moves (h : Moves c i s w t)
    (hd : ∀ e, w.edition = some e → e.version < s.channel.version ∨ e = s.edition) :
    (t.worker.edition = w.edition ∨ t.worker.edition = some s.edition) ∧
      (t.worker.phase = .parked → t.worker.edition = some s.edition) := by
  cases h with
  | begins h hf => exact ⟨.inr rfl, fun _ => rfl⟩
  | @leaves w' h hd' =>
    have he : w'.edition = w.edition := edition_of_atHead h
    exact ⟨.inl he, nofun⟩
  | @parks w' h hd' e he hp =>
    rw [taken_eq (edition_of_atHead h ▸ hd)] at he
    subst he
    exact ⟨.inr rfl, fun _ => rfl⟩
  | @starts w' h hd' e he delayMs hp act ha =>
    rw [taken_eq (edition_of_atHead h ▸ hd)] at he
    subst he
    obtain ⟨hed, hph⟩ := edition_trace (c := c) (i := i) (s := s)
      (w := { w' with edition := some s.edition }) act ⟨s.edition, delayMs⟩
    exact ⟨.inr hed, fun h => absurd h hph⟩
  | goesOn h =>
    obtain ⟨hed, hph⟩ := edition_trace (c := c) (i := i) (s := s) (w := w) _ _
    exact ⟨.inl hed, fun h => absurd h hph⟩

/-- The plans that are ever in force. -/
def Course.plans (c : Course α) (plan : Plan α) : List (Plan α) := plan :: c.setting.news.map (·.2)

structure News (c : Course α) (plan : Plan α) (s : State α) : Prop where
  source : s.channel.current ∈ c.plans plan
  listeners : s.channel.listeners ≠ []
  informed : ∀ i w, s.workers[i]? = some w → Informed s i w

omit [Scalar α] in
theorem News.told (h : News c plan s) : Told s [] :=
  ⟨h.listeners, by rw [owing_nil]; exact h.informed⟩

omit [Scalar α] in
theorem News.of_told (hc : s.channel.current ∈ c.plans plan) (h : Told s []) : News c plan s :=
  ⟨hc, h.listeners, owing_nil s ▸ h.informed⟩

omit [Scalar α] in
theorem Informed.turn (h : Informed (s.owing ids) i w) {a : Actor} (ht : Turn a s s₁)
    (ha : a ≠ .worker i) : Informed (s₁.owing ids) i w := by
  refine h.mono ht.channel fun _ hp => pending_owing.mpr ((pending_owing.mp hp).imp_left ?_)
  intro hp
  rcases hp with hw | hr
  · exact .inl (ht.ready _ hw (by simp))
  · exact .inr (ht.ready _ hr (by simpa using ha.symm))

theorem Informed.moves (h : Informed (s.owing ids) i w) (hch : s₁.channel = s.channel)
    (hl : s.channel.listeners ≠ []) (hi : i < s₁.workers.length) (hm : Moves c i s₁ w t)
    (ho : Only c (.worker i) s₁ s') : Informed (s'.owing ids) i t.worker := by
  have hd : ∀ e, w.edition = some e → e.version < s₁.channel.version ∨ e = s₁.edition := by
    rw [edition, hch]
    exact h.dated
  obtain ⟨hkeep, hpark⟩ := edition_of_moves hm hd
  refine .of_only ho (hch ▸ hl) hi (fun e he => ?_) fun hp => .inl (hpark hp)
  rcases hkeep with hk | hk
  · exact hd e (hk ▸ he)
  · exact .inr (Option.some.inj (he.symm.trans hk))

theorem told_turn {P : Nat → Int → Worker α → Wait → List (Event α) → Prop} (h : Told s ids)
    (hh : Local.Holds P s) {a : Actor} (ht : Turn a s s₁) : Told (s₁.resume c a) ids := by
  have ho : Only c a s₁ (s₁.resume c a) := hh.only_resume ht
  have hl : s₁.channel.listeners ≠ [] := ht.channel ▸ h.listeners
  have hlt {j : Nat} {w : Worker α} (hjw : s.workers[j]? = some w) : j < s₁.workers.length := by
    rw [ht.workers]
    exact (List.getElem?_eq_some_iff.mp hjw).1
  refine ⟨ho.listeners ▸ hl, fun j v hjv => ?_⟩
  by_cases hj : a = .worker j
  · subst hj
    cases hw : s.workers[j]? with
    | none =>
      rw [Local.resume_nobody ht hw, ht.workers, hw] at hjv
      cases hjv
    | some w =>
      obtain ⟨t, hm, hlead⟩ := hh.exists_leads (c := c) ht hw
      cases hlead.standing.worker.symm.trans hjv
      exact (h.informed j w hw).moves ht.channel h.listeners (hlt hw) hm hlead.only
  · have hjw : s.workers[j]? = some v := by
      rw [← ht.workers, ← ho.worker j hj]
      exact hjv
    exact ((h.informed j v hjw).turn ht hj).only ho hj hl (hlt hjw)

omit [Scalar α] in
theorem mem_ready_wake {task : Task} (h : task ∈ s.ready) (i : Nat) : task ∈ (s.wake i).ready := by
  rw [State.wake, State.cancel]
  split
  · split
    · exact List.mem_append_left _ h
    · exact h
  · exact h

omit [Scalar α] in
theorem channel_wake (s : State α) (i : Nat) :
    (s.wake i).channel = s.channel ∧ (s.wake i).workers = s.workers := by
  rw [State.wake, State.cancel]
  split
  · split <;> exact ⟨rfl, rfl⟩
  · exact ⟨rfl, rfl⟩

omit [Scalar α] in
theorem journal_wake (s : State α) (i : Nat) :
    (s.wake i).journal = s.journal ∧ (s.wake i).recorder = s.recorder := by
  rw [State.wake, State.cancel]
  split
  · split <;> exact ⟨rfl, rfl⟩
  · exact ⟨rfl, rfl⟩

omit [Scalar α] in
theorem pending_wake {wait : Wait} (h : Standing s i w wait) (hp : w.isParked = true)
    (hw : wait ≠ .nothing) : .resume (.worker i) ∈ (s.wake i).ready := by
  have hcalls : 0 < (s.wake i).calls (.worker i) := by
    rw [State.wake, if_pos (by simp [h.worker, hp])]
    cases wait with
    | nothing => exact absurd rfl hw
    | alarm time =>
      rw [h.cancel.calls]
      exact Nat.one_pos
    | turn =>
      rw [cancel_eq_self h rfl, h.calls]
      exact Nat.one_pos
  exact List.count_pos_iff.mp hcalls

omit [Scalar α] in
theorem told_woken {P : Nat → Int → Worker α → Wait → List (Event α) → Prop} (h : Told s ids)
    (hh : Local.Holds P s) {i : Nat} {pre rest : List Task} (hr : s.ready = pre ++ .wake i :: rest) :
    Told (({ s with ready := pre ++ rest } : State α).wake i) ids := by
  let s₁ : State α := { s with ready := pre ++ rest }
  obtain ⟨hc, hw⟩ := channel_wake s₁ i
  refine ⟨by rw [hc]; exact h.listeners, fun j w hj => ?_⟩
  rw [hw] at hj
  refine (h.informed j w hj).mono hc fun hp hpend =>
    pending_owing.mpr ((pending_owing.mp hpend).imp_left fun hpend => ?_)
  have hmem : j = i ∨ .wake j ∈ s₁.ready ∨ .resume (.worker j) ∈ s₁.ready := by
    have hready : .wake j ∈ pre ++ .wake i :: rest ∨
        .resume (.worker j) ∈ pre ++ .wake i :: rest := hr ▸ hpend
    simp only [List.mem_append, List.mem_cons, Task.wake.injEq, reduceCtorEq, false_or] at hready
    simp only [s₁, List.mem_append]
    grind
  rcases hmem with rfl | hwake | hresume
  · obtain ⟨wait, hst⟩ := hh.stands j w hj
    have hcalls : s₁.calls (.worker j) = wait.calls := by
      rw [← hst.standing.calls, calls, calls, hr]
      simp [s₁, List.count_append]
    have hstand : Standing s₁ j w wait := ⟨hj, hst.standing.alarms, hcalls⟩
    refine .inr (pending_wake hstand ?_ ?_)
    · simp [Worker.isParked, hp]
    · intro hwait
      have := hst.isOver.mpr hwait
      simp [Worker.isOver, hp] at this
  · exact .inl (mem_ready_wake hwake i)
  · exact .inr (mem_ready_wake hresume i)

theorem news (hs : Reachable c channel r s) : News c channel.current s := by
  induction hs with
  | start =>
    refine ⟨List.mem_cons_self, by simp [Course.start, Channel.subscribe], fun i w hw => ?_⟩
    obtain ⟨-, rfl⟩ : i < c.workers ∧ Worker.fresh c.startedAt = w := by
      simpa [Course.start, List.getElem?_replicate] using hw
    constructor
    · intro e he
      cases he
    · intro hp
      cases hp
  | @step s s' hs hstep ih =>
    have hh := (local_onTime c channel r).holds hs
    obtain ⟨a, s₁, ht, rfl⟩ | ⟨i, rest, hr, rfl⟩ := exists_turn_or_wake hh.inOrder hstep
    · refine .of_told ?_ (told_turn ih.told hh ht)
      rcases (hh.only_resume (c := c) ht).source with he | he
      · rw [he, ht.channel]
        exact ih.source
      · exact List.mem_cons_of_mem _ he
    · have hr' : s.ready = [] ++ .wake i :: rest := hr
      refine .of_told ?_ (told_woken ih.told hh hr')
      rw [(channel_wake _ i).1]
      exact ih.source

/-- A worker that is parked, and not about to be woken, has looked at the target of the current plan
at time `since`. -/
structure Parked (c : Course Rat) (s : State Rat) (i : Nat) (since : Int) : Prop where
  latest : ∃ es, s.past i = .paced i since s.edition none :: es
  since_le : since ≤ s.now
  le_hour : s.now ≤ min (since + longest) c.deadline
  nothing : (rateAt c since s.edition).isPositive = false
  /-- Nor has there been a target since, unless it is one that rises. -/
  still : ¬s.channel.current.load.Rises →
    ∀ time, since ≤ time → (rateAt c time s.edition).isPositive = false

/-- A worker is parked for lack of a target in the current plan, and for an hour at most. -/
theorem exists_parked_since (setting : Setting Rat) (channel : Channel (Plan Rat) Unit)
    (r : Metrics.Recorder) (now : Int)
    (hv : ∀ plan ∈ channel.current :: setting.news.map (·.2), plan.load.validate.isOk = true)
    {s : State Rat} (hs : Reachable (.ofPlan setting channel.current now) channel r s) {i : Nat}
    {w : Worker Rat} (hw : s.workers[i]? = some w) (hp : w.isParked = true)
    (hpend : ¬Pending s i) :
    ∃ since, Parked (.ofPlan setting channel.current now) s i since := by
  have hn := news hs
  obtain ⟨wait, hst⟩ :=
    ((local_onTime (.ofPlan setting channel.current now) channel r).holds hs).stands i w hw
  obtain ⟨bs, ht, hsched, hstage⟩ := hst.holds
  have hphase : w.phase = .parked := by
    unfold Worker.isParked at hp
    split at hp
    · assumption
    · cases hp
  obtain ⟨since, e, bs', rfl, he, hle, hhour⟩ := hstage.of_parked hphase
  -- what it looked at is current, or else it would be about to be woken
  have hcur : e = s.edition := by
    rcases (hn.informed i w hw).parked hphase with h | h
    · exact Option.some.inj (he.symm.trans h)
    · exact absurd h hpend
  subst hcur
  have hnothing : (rateAt (.ofPlan setting channel.current now) since s.edition).isPositive =
      false := by
    cases hsched with
    | next hb hn h => exact hb.2
  have hlatest : ∃ j es, s.past i = .paced j since s.edition none :: es := by
    generalize s.past i = past at ht
    cases ht with
    | @parked j _ _ es _ h => exact ⟨j, es, rfl⟩
  obtain ⟨j, es, hpast⟩ := hlatest
  have hmem : Event.paced j since s.edition none ∈ s.past i := by simp [hpast]
  obtain rfl : j = i := by simpa [Event.worker?] using (List.mem_filter.mp hmem).2
  refine ⟨since, ⟨es, hpast⟩, hle, hhour, hnothing, fun hr time htime => ?_⟩
  refine LoadModel.isPositive_of_le (hv _ hn.source) hr (ofNanos_mono ?_) hnothing
  omega

def burst : Plan Rat := planOf 1 20 (.daily ⟨0, 0, 10, 10, ⟨0, 1 / 10, 0, 0, 0⟩⟩)

def watched : Setting Rat :=
  { Setting.ofClient (steady 1000000) with memory := some ⟨some 1000, fun _ => .bytes 1⟩ }

theorem exists_parked_since_burst : ∃ (s : State Rat) (w : Worker Rat) (since : Int),
    s.workers[0]? = some w ∧ w.isParked = true ∧ s.now = 5000000000 ∧
      Parked (.ofPlan watched burst 0) s 0 since := by
  have hs := reachable_stateAt watched (.ofPlan burst) (.create 1 false 0) 0 24
  obtain ⟨w, hw, hp⟩ : ∃ w, (stateAt watched (.ofPlan burst) (.create 1 false 0) 0 24).workers[0]? =
      some w ∧ w.isParked = true := (Option.any_eq_true Worker.isParked _).mp (by decide +kernel)
  obtain ⟨since, h⟩ := exists_parked_since _ _ _ _ (by decide +kernel) hs hw hp
    (by unfold Pending; decide +kernel)
  exact ⟨_, _, since, hw, hp, by decide +kernel, h⟩

/-- A worker that has been parked for the night stays so in the next morning. -/
theorem exists_parked_with_target : ∃ (setting : Setting Rat) (channel : Channel (Plan Rat) Unit)
    (r : Metrics.Recorder) (s : State Rat) (w : Worker Rat),
    (∀ plan ∈ channel.current :: setting.news.map (·.2), plan.load.validate.isOk = true) ∧
    Reachable (.ofPlan setting channel.current 0) channel r s ∧ s.workers[0]? = some w ∧
      w.isParked = true ∧ ¬Pending s 0 ∧
      (rateAt (.ofPlan setting channel.current 0) s.now s.edition).isPositive = true := by
  obtain ⟨w, hw, hp⟩ : ∃ w, (stateAt watched (.ofPlan burst) (.create 1 false 0) 0 25).workers[0]? =
      some w ∧ w.isParked = true := (Option.any_eq_true Worker.isParked _).mp (by decide +kernel)
  refine ⟨watched, .ofPlan burst, .create 1 false 0, _, w, by decide +kernel,
    reachable_stateAt _ _ _ _ 25, hw, hp, ?_, ?_⟩
  · rw [Pending]
    decide +kernel
  · decide +kernel

end LoadGenerator.Run
