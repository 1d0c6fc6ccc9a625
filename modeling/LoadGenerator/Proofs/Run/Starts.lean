import LoadGenerator.Proofs.Run.Balance
import LoadGenerator.Proofs.Run.Waking

namespace LoadGenerator.Run

open State

variable {α : Type}

def Event.start? : Event α → Option Int
  | .paced _ time _ (some _) => some time
  | _ => none

def Event.taken? : Event α → Option (Edition α)
  | .begun _ _ e => some e
  | .paced _ _ e _ => some e
  | _ => none

def Beat.start? : Beat α → Option Int
  | .unit start _ _ _ => some start
  | _ => none

def Beat.edition : Beat α → Edition α
  | .begun _ e => e
  | .unit _ job _ _ => job.edition
  | .park _ e => e

/-- When units of work have started, in order. -/
def State.starts (s : State α) : List Int := s.journal.reverse.filterMap Event.start?

def State.startsOf (s : State α) (i : Nat) : List Int := (s.past i).reverse.filterMap Event.start?

section

variable {es : List (Event α)} {bs : List (Beat α)} {s : State α} {i : Nat}

theorem Tells.filterMap_start? (h : Tells es bs) :
    es.filterMap Event.start? = bs.filterMap Beat.start? := by
  induction h with
  | fresh => rfl
  | begun i time e => rfl
  | parked i time e h ih => exact ih
  | started i time job h ih => exact congrArg (time :: ·) ih
  | sent i time request h ih => exact ih
  | ended i time work h ih => exact ih

theorem Tells.plan_mem {plans : List (Plan α)} (h : Tells es bs)
    (hes : ∀ e ∈ es, ∀ ed ∈ e.taken?, ed.plan ∈ plans) : ∀ b ∈ bs, b.edition.plan ∈ plans := by
  induction h with
  | fresh => simp
  | begun i time e => simpa [Event.taken?, Beat.edition] using hes
  | parked i time e h ih =>
    obtain ⟨he, hes⟩ := List.forall_mem_cons.mp hes
    exact List.forall_mem_cons.mpr ⟨he e rfl, ih hes⟩
  | started i time job h ih =>
    obtain ⟨he, hes⟩ := List.forall_mem_cons.mp hes
    exact List.forall_mem_cons.mpr ⟨he job.edition rfl, ih hes⟩
  | sent i time request h ih =>
    obtain ⟨hb, hbs⟩ := List.forall_mem_cons.mp (ih (List.forall_mem_cons.mp hes).2)
    exact List.forall_mem_cons.mpr ⟨hb, hbs⟩
  | ended i time work h ih =>
    obtain ⟨hb, hbs⟩ := List.forall_mem_cons.mp (ih (List.forall_mem_cons.mp hes).2)
    exact List.forall_mem_cons.mpr ⟨hb, hbs⟩

theorem startsOf_eq (h : Tells (s.past i) bs) :
    s.startsOf i = (bs.filterMap Beat.start?).reverse := by
  rw [startsOf, List.filterMap_reverse, h.filterMap_start?]

theorem starts_eq (s : State α) : s.starts = (s.deeds.filterMap Event.start?).reverse := by
  rw [starts, List.filterMap_reverse, deeds, List.filterMap_filter]
  congr 1
  apply List.filterMap_congr
  intro e _
  cases e <;> rfl

theorem flatMap_startsOf_perm
    (hi : ∀ e ∈ s.journal, ∀ i, e.worker? = some i → i < s.workers.length) :
    ((List.range s.workers.length).flatMap s.startsOf).Perm s.starts := by
  have hp := (flatMap_past_perm hi).filterMap Event.start?
  rw [List.filterMap_flatMap] at hp
  rw [starts_eq]
  refine .trans (List.Perm.flatMap_left _ fun i _ => ?_) (hp.trans (List.reverse_perm _).symm)
  rw [startsOf, List.filterMap_reverse]
  exact List.reverse_perm _

end

variable [Scalar α] {c : Course α} {channel : Channel (Plan α) Unit} {r : Metrics.Recorder}
  {s s₁ : State α} {i : Nat} {w : Worker α} {t : Trace α}

theorem starts_perm (hs : Reachable c channel r s) :
    ((List.range c.workers).flatMap s.startsOf).Perm s.starts := by
  rw [← hs.interleaved.length_workers]
  refine flatMap_startsOf_perm fun e he i hi => ?_
  obtain ⟨w, wait, hst, -⟩ := ((local_onTime c channel r).holds hs).exists_stands he hi
  exact (List.getElem?_eq_some_iff.mp hst.standing.worker).1

omit [Scalar α] in
theorem start?_trace (act : Act) (job : Job α) :
    (act.trace c i s w job).events.filterMap Event.start? = [] := by
  cases act with
  | send request purpose => rfl
  | think ms x p => rfl
  | stop message => rfl
  | complete jar work =>
    rw [Act.trace]
    dsimp only
    split <;> rfl

theorem start?_of_moves (h : Moves c i s w t) :
    ∀ time ∈ t.events.filterMap Event.start?, time = s.now := by
  cases h with
  | begins hp hf => simp [Event.start?]
  | leaves hw hd => simp
  | parks hw hd he hp => simp [Event.start?]
  | starts hw hd he hp ha =>
    rw [Trace.after, List.filterMap_append, start?_trace]
    simp [Event.start?]
  | goesOn hg => simp [start?_trace]

omit [Scalar α] in
theorem taken?_trace (act : Act) (job : Job α) {plans : List (Plan α)} :
    ∀ e ∈ (act.trace c i s w job).events, ∀ ed ∈ e.taken?, ed.plan ∈ plans := by
  cases act with
  | send request purpose => simp [Act.trace, Event.taken?]
  | think ms x p => simp [Act.trace]
  | stop message => simp [Act.trace]
  | complete jar work =>
    rw [Act.trace]
    dsimp only
    split <;> simp [Event.taken?]

structure InTurn (now : Int) (starts : List Int) : Prop where
  pairwise : starts.Pairwise (· ≥ ·)
  le : ∀ time ∈ starts, time ≤ now

theorem InTurn.later {now now' : Int} {starts : List Int} (h : InTurn now starts)
    (hn : now ≤ now') : InTurn now' starts :=
  ⟨h.pairwise, fun time ht => Int.le_trans (h.le time ht) hn⟩

theorem InTurn.append {now : Int} {starts later : List Int} (h : InTurn now starts)
    (hl : ∀ time ∈ later, time = now) : InTurn now (later ++ starts) := by
  refine ⟨List.pairwise_append.mpr ⟨?_, h.pairwise, ?_⟩, fun time ht => ?_⟩
  · exact List.pairwise_of_forall_mem_list fun a ha b hb => by rw [hl a ha, hl b hb]
  · intro a ha b hb
    rw [hl a ha]
    exact h.le b hb
  · rcases List.mem_append.mp ht with ht | ht
    · exact (hl time ht).le
    · exact h.le time ht

theorem inTurn_turn {P : Nat → Int → Worker α → Wait → List (Event α) → Prop}
    (h : InTurn s.now (s.deeds.filterMap Event.start?)) (hh : Local.Holds P s) {a : Actor}
    (ht : Turn a s s₁) (hn : s.now ≤ (s₁.resume c a).now) :
    InTurn (s₁.resume c a).now ((s₁.resume c a).deeds.filterMap Event.start?) := by
  rw [← ht.deeds] at h
  rw [(hh.only_resume (c := c) ht).now] at hn ⊢
  cases a with
  | guard =>
    rw [State.resume, (tends_resumeGuard c s₁).deeds]
    exact h.later hn
  | worker i =>
    cases hi : s.workers[i]? with
    | none =>
      rw [Local.resume_nobody ht hi]
      exact h.later hn
    | some w =>
      obtain ⟨t, hm, hl⟩ := hh.exists_leads (c := c) ht hi
      rw [hl.deeds, List.filterMap_append]
      exact (h.later hn).append (start?_of_moves hm)

theorem now_le_of_step (hs : Reachable c channel r s) {s' : State α} (h : s.step c = some s') :
    s.now ≤ s'.now := by
  refine (kept_stepped (P := fun m => Attuned m ∧ s.now ≤ m.state.now) (fun hp hstep => ?_)
    ⟨attuned hs.interleaved, le_refl _⟩ h).2
  exact ⟨attuned_step hp.1 hstep, hp.2.trans (now_le_of_happens hp.1 hstep)⟩

theorem inTurn (hs : Reachable c channel r s) :
    InTurn s.now (s.deeds.filterMap Event.start?) := by
  induction hs with
  | start => exact ⟨.nil, by simp [Course.start, deeds]⟩
  | @step s s' hs hstep ih =>
    have hh := (local_onTime c channel r).holds hs
    have hn := now_le_of_step hs hstep
    obtain ⟨a, s₁, ht, rfl⟩ | ⟨i, rest, hr, rfl⟩ := exists_turn_or_wake hh.inOrder hstep
    · exact inTurn_turn ih hh ht hn
    · rw [deeds, (journal_wake _ i).1, ← deeds]
      exact ih.later hn

theorem pairwise_starts (hs : Reachable c channel r s) : s.starts.Pairwise (· ≤ ·) := by
  rw [starts_eq, List.pairwise_reverse]
  exact (inTurn hs).pairwise

variable (c channel r) in
theorem local_taken : Local c (Reachable c channel r) fun _ _ _ _ past =>
    ∀ e ∈ past, ∀ ed ∈ e.taken?, ed.plan ∈ c.plans channel.current where
  fresh _ := by simp
  wake _ h := h
  later _ _ _ h := h
  move {i s s₁ w wait t} hs hw ht _ h hm := by
    have htake {w' : Worker α} (h : AtHead s₁.now w w') :
        (taken s₁ i w').plan ∈ c.plans channel.current := taken_mem hs ht.channel hw h
    refine List.forall_mem_append.mpr ⟨?_, h⟩
    cases hm with
    | begins hp hf =>
      have hsource := (news hs).source
      rw [← ht.channel] at hsource
      simpa [Event.taken?, edition] using hsource
    | leaves hw' hd => simp
    | parks hw' hd he hp => simpa [Event.taken?, he] using htake hw'
    | starts hw' hd he hp ha =>
      rw [Trace.after]
      refine List.forall_mem_append.mpr ⟨taken?_trace _ _, ?_⟩
      simpa [Event.taken?, he] using htake hw'
    | goesOn hg => exact taken?_trace _ _

/-- The beats of a worker are as they are due, and under plans that have been in force. -/
structure InForce (c : Course α) (plans : List (Plan α)) (i : Nat) (s : State α) (w : Worker α)
    (wait : Wait) (bs : List (Beat α)) : Prop where
  onTime : OnTime c i s.now w wait (s.past i) bs
  plans : ∀ b ∈ bs, b.edition.plan ∈ plans

theorem exists_inForce (hs : Reachable c channel r s) (hi : i < c.workers) :
    ∃ w wait bs, w ∈ s.workers ∧ InForce c (c.plans channel.current) i s w wait bs := by
  obtain ⟨w, hw⟩ : ∃ w, s.workers[i]? = some w :=
    Option.isSome_iff_exists.mp (by simpa [hs.interleaved.length_workers] using hi)
  obtain ⟨wait, hst⟩ := ((local_onTime c channel r).holds hs).stands i w hw
  obtain ⟨bs, h⟩ := hst.holds
  obtain ⟨wait', hst'⟩ := ((local_taken c channel r).holds hs).stands i w hw
  exact ⟨w, wait, bs, List.mem_of_getElem? hw, h, h.tells.plan_mem hst'.holds⟩

/-- All plans have one pause, from the beginning of the run to its end. -/
def Course.Paces (c : Course α) (plans : List (Plan α)) (delayMs : Nat) : Prop :=
  ∀ plan ∈ plans, Pacing.delay? (plan.load.rate Scalar.zero) c.workers = some delayMs ∧
    ∀ time, c.startedAt ≤ time → time < c.deadline →
      Pacing.delay? (plan.load.rate (Duration.ofNanos (time - c.startedAt))) c.workers = some delayMs

def Beat.Paced (c : Course α) (i delayMs : Nat) : Beat α → Prop
  | .begun time e => time = c.startedAt ∧ firstFire c i e =
      c.startedAt + Pacing.stagger i c.workers delayMs * Clock.perMilli
  | .unit start job _ stop => job.delayMs = delayMs ∧ start < c.deadline ∧ ∀ time ∈ stop, start ≤ time
  | .park _ _ => False

section

variable {plans : List (Plan α)} {delayMs : Nat} {b : Beat α} {bs : List (Beat α)}

theorem paces_of_constant {target : α}
    (hd : Pacing.delay? (.perSecond target) c.workers = some delayMs)
    (hp : ∀ plan ∈ plans, plan.load = .constant target) : c.Paces plans delayMs := by
  intro plan hplan
  rw [hp plan hplan]
  exact ⟨hd, fun _ _ _ => hd⟩

theorem Schedule.startedAt_le (h : Schedule c i bs) : ∀ b ∈ bs, c.startedAt ≤ b.time := by
  induction h with
  | fresh => simp
  | begun e => simp [Beat.time]
  | @next b b' bs hb hn h ih =>
    refine List.forall_mem_cons.mpr ⟨?_, ih⟩
    have hle : c.startedAt ≤ b'.time := ih b' (by simp)
    exact (hle.trans b'.time_le_slotEnd).trans (h.slotEnd_le hn)

theorem Schedule.paced (h : Schedule c i bs) (hc : c.Paces plans delayMs)
    (hp : ∀ b ∈ bs, b.edition.plan ∈ plans) : ∀ b ∈ bs, b.Paced c i delayMs := by
  induction h with
  | fresh => simp
  | begun e =>
    have hd : Pacing.delay? (e.plan.load.rate Scalar.zero) c.workers = some delayMs :=
      (hc _ (hp _ List.mem_cons_self)).1
    refine List.forall_mem_cons.mpr ⟨⟨rfl, ?_⟩, by simp⟩
    rw [firstFire, hd]
  | @next b b' bs hb hn h ih =>
    obtain ⟨hplan, hplans⟩ := List.forall_mem_cons.mp hp
    refine List.forall_mem_cons.mpr ⟨?_, ih hplans⟩
    have hstart := (Schedule.next hb hn h).startedAt_le b (by simp)
    cases b with
    | begun time e => exact hb.elim
    | unit start job sends stop =>
      obtain ⟨hd, hpause, -, hstop⟩ := hb
      exact ⟨Option.some.inj (hpause.symm.trans ((hc _ hplan).2 start hstart hd)), hd, hstop⟩
    | park time e =>
      -- there is always something to pace
      have hnone := (Pacing.delay?_eq_none_iff _ c.workers).mpr hb.2
      exact absurd (hnone.symm.trans ((hc _ hplan).2 time hstart hb.1)) (by simp)

end

end LoadGenerator.Run
