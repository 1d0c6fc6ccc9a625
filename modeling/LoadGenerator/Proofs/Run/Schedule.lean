import LoadGenerator.Proofs.Load.Pacing
import LoadGenerator.Proofs.Run.Local
import LoadGenerator.Scalar.Rational

namespace LoadGenerator.Run

open Http State

variable {α : Type}

/-- An entry in the schedule of a worker. -/
inductive Beat (α : Type) where
  | begun (time : Int) (edition : Edition α)
  /-- A unit of work: when it began, when its requests were sent, the newest first, and when it was
  over, if it is. -/
  | unit (start : Int) (job : Job α) (sends : List Int) (stop : Option Int)
  | park (time : Int) (edition : Edition α)

namespace Beat

def time : Beat α → Int
  | .begun time _ => time
  | .unit start _ _ _ => start
  | .park time _ => time

/-- Not before this time is another beat due. -/
def slotEnd : Beat α → Int
  | .begun time _ => time
  | .unit start job _ _ => start + job.delayMs * Clock.perMilli
  | .park time _ => time

theorem time_le_slotEnd (b : Beat α) : b.time ≤ b.slotEnd := by
  cases b with
  | begun time e => exact Int.le_refl _
  | park time e => exact Int.le_refl _
  | unit start job sends stop =>
    simp only [time, slotEnd, Clock.perMilli]
    omega

/-- A unit that is over when its slot is. -/
def IsPunctual : Beat α → Prop
  | .unit start job _ (some stop) => stop ≤ start + job.delayMs * Clock.perMilli
  | _ => False

end Beat

def slots : List (Beat α) → Int
  | [] => 0
  | b :: bs => b.slotEnd - b.time + slots bs

/-- The events of one worker tell of its beats, both the newest first. -/
inductive Tells : List (Event α) → List (Beat α) → Prop
  | fresh : Tells [] []
  | begun (i : Nat) (time : Int) (e : Edition α) : Tells [.begun i time e] [.begun time e]
  | parked (i : Nat) (time : Int) (e : Edition α) {es : List (Event α)} {bs : List (Beat α)}
      (h : Tells es bs) : Tells (.paced i time e none :: es) (.park time e :: bs)
  | started (i : Nat) (time : Int) (job : Job α) {es : List (Event α)} {bs : List (Beat α)}
      (h : Tells es bs) :
      Tells (.paced i time job.edition (some job.delayMs) :: es) (.unit time job [] none :: bs)
  | sent (i : Nat) (time : Int) (request : Request) {es : List (Event α)} {start : Int}
      {job : Job α} {sends : List Int} {bs : List (Beat α)}
      (h : Tells es (.unit start job sends none :: bs)) :
      Tells (.sent i time job.edition request :: es) (.unit start job (time :: sends) none :: bs)
  | ended (i : Nat) (time : Int) (work : Work) {es : List (Event α)} {start : Int}
      {job : Job α} {sends : List Int} {bs : List (Beat α)}
      (h : Tells es (.unit start job sends none :: bs)) :
      Tells (.ended i time job work :: es) (.unit start job sends (some time) :: bs)

def longest : Int := Pacing.longestMs * Clock.perMilli

def Worker.job? (w : Worker α) : Option (Job α) :=
  match w.phase with
  | .sending job _ _ _ => some job
  | .thinking job _ _ => some job
  | _ => none

theorem GoesOn.job {now : Int} {w : Worker α} {job : Job α} {act : Act} (h : GoesOn now w job act) :
    w.job? = some job := by
  cases h with
  | broken hp ha => simp only [Worker.job?, hp]
  | bare hp ha => simp only [Worker.job?, hp]
  | step hp ha random => simp only [Worker.job?, hp]
  | thought hp => simp only [Worker.job?, hp]

theorem Job.le_nextFire (job : Job α) (due now : Int) : now ≤ job.nextFire due now := by
  rw [Job.nextFire]
  split
  · exact Int.le_refl _
  · exact Int.le_max_right _ _

theorem Job.delay_le_nextFire (job : Job α) {due now : Int} (h : due ≤ now) :
    due + job.delayMs * Clock.perMilli ≤ job.nextFire due now := by
  rw [Job.nextFire]
  split
  · next hd => simpa [hd] using h
  · exact Int.le_max_left _ _

theorem Job.nextFire_of_le (job : Job α) {due now : Int} (h : due ≤ now)
    (hnow : now ≤ due + job.delayMs * Clock.perMilli) :
    job.nextFire due now = due + job.delayMs * Clock.perMilli := by
  rw [Job.nextFire]
  split
  · next hd =>
    simp only [hd, Int.natCast_zero, Int.zero_mul, Int.add_zero] at hnow ⊢
    exact Int.le_antisymm hnow h
  · exact Int.max_eq_left hnow

variable [Scalar α]

def rateAt (c : Course α) (time : Int) (e : Edition α) : Rate α :=
  e.plan.load.rate (Duration.ofNanos (time - c.startedAt))

namespace Beat

/-- At `time`, worker `i` is due to look at the target again after a beat. -/
def Next (c : Course α) (i : Nat) (time : Int) : Beat α → Prop
  | .begun _ e => time = firstFire c i e
  | .unit start job _ (some stop) => time = job.nextFire start stop
  | .unit _ _ _ none => False
  | .park start _ => start ≤ time ∧ time ≤ start + longest

/-- A look at the target before the deadline, and what comes of it. -/
def Sound (c : Course α) : Beat α → Prop
  | .begun _ _ => False
  | .unit start job sends stop =>
    start < c.deadline ∧ Pacing.delay? (rateAt c start job.edition) c.workers = some job.delayMs ∧
      (∀ time ∈ sends.getLast?, time = start) ∧ ∀ time ∈ stop, start ≤ time
  | .park time e => time < c.deadline ∧ (rateAt c time e).isPositive = false

/-- After a beat, worker `i` is not due again before the deadline. -/
def Last (c : Course α) (i : Nat) (b : Beat α) : Prop := ∃ time, c.deadline ≤ time ∧ b.Next c i time

end Beat

/-- The beats of worker `i`, the newest first, are as they are due. -/
inductive Schedule (c : Course α) (i : Nat) : List (Beat α) → Prop
  | fresh : Schedule c i []
  | begun (e : Edition α) : Schedule c i [.begun c.startedAt e]
  | next {b b' : Beat α} {bs : List (Beat α)} (hb : b.Sound c) (hn : b'.Next c i b.time)
      (h : Schedule c i (b' :: bs)) : Schedule c i (b :: b' :: bs)

namespace Schedule

variable {c : Course α} {i : Nat} {b : Beat α} {bs : List (Beat α)}

theorem send {start time : Int} {job : Job α} {sends : List Int}
    (h : Schedule c i (.unit start job sends none :: bs)) (ht : sends = [] → start = time) :
    Schedule c i (.unit start job (time :: sends) none :: bs) := by
  cases h with
  | next hb hn h =>
    obtain ⟨hd, hp, hfirst, hstop⟩ := hb
    refine .next ⟨hd, hp, fun u hu => ?_, hstop⟩ hn h
    cases sends with
    | nil =>
      obtain rfl : time = u := by simpa using hu
      exact (ht rfl).symm
    | cons v vs => exact hfirst u (by simpa using hu)

theorem stop {start time : Int} {job : Job α} {sends : List Int}
    (h : Schedule c i (.unit start job sends none :: bs)) (ht : start ≤ time) :
    Schedule c i (.unit start job sends (some time) :: bs) := by
  cases h with
  | next hb hn h =>
    obtain ⟨hd, hp, hfirst, -⟩ := hb
    exact .next ⟨hd, hp, hfirst, by simpa using ht⟩ hn h

end Schedule

/-- How worker `i`, which stands as `w` and waits for `wait`, has come to its beats. -/
inductive Stage (c : Course α) (i : Nat) (now : Int) (w : Worker α) : Wait → List (Beat α) → Prop
  | fresh (h : w.phase = .fresh) (hn : now = c.startedAt) : Stage c i now w .turn []
  | due (h : w.phase = .pausing) {b : Beat α} {bs : List (Beat α)} (hb : b.Next c i w.nextFire)
      (hn : now ≤ w.nextFire) (hd : w.nextFire = now ∨ c.deadline ≤ now) :
      Stage c i now w .turn (b :: bs)
  | pausing (h : w.phase = .pausing) {b : Beat α} {bs : List (Beat α)}
      (hb : b.Next c i w.nextFire) (hn : now ≤ min w.nextFire c.deadline) :
      Stage c i now w (.alarm (min w.nextFire c.deadline)) (b :: bs)
  | parked (h : w.phase = .parked) {time : Int} {e : Edition α} {bs : List (Beat α)} {wait : Wait}
      (he : w.edition = some e) (ht : time ≤ now) (hn : now ≤ min (time + longest) c.deadline)
      (hw : wait = .turn ∨ wait = .alarm (min (time + longest) c.deadline)) :
      Stage c i now w wait (.park time e :: bs)
  | busy {job : Job α} (h : w.job? = some job) (hn : w.nextFire ≤ now) {sends : List Int}
      (hs : sends ≠ []) {time : Int} {bs : List (Beat α)} :
      Stage c i now w (.alarm time) (.unit w.nextFire job sends none :: bs)
  | finished (h : w.phase = .finished) {b : Beat α} {bs : List (Beat α)} (hb : b.Last c i) :
      Stage c i now w .nothing (b :: bs)
  | stopped (h : w.phase = .stopped) {bs : List (Beat α)} : Stage c i now w .nothing bs

section

variable {c : Course α} {i : Nat} {now now' : Int} {w w' : Worker α} {wait : Wait} {b : Beat α}
  {bs : List (Beat α)} {s : State α}

theorem stage_pause (h : w.phase = .pausing) (hb : b.Next c i w.nextFire)
    (hn : now ≤ w.nextFire) :
    Stage c i now w (.pause now (min w.nextFire c.deadline)) (b :: bs) := by
  rw [Wait.pause]
  split
  · next hle => exact .due h hb hn (by omega)
  · next hlt => exact .pausing h hb (by omega)

theorem Stage.later (h : Stage c i now w wait bs) (hw : wait ≠ .turn) (hn : now ≤ now')
    (ha : ∀ time, wait = .alarm time → now' ≤ max now time) : Stage c i now' w wait bs := by
  cases h with
  | fresh h hn => exact absurd rfl hw
  | due h hb hn hd => exact absurd rfl hw
  | pausing h hb hle =>
    have := ha _ rfl
    exact .pausing h hb (by omega)
  | parked h he ht hle hwait =>
    rcases hwait with rfl | rfl
    · exact absurd rfl hw
    · have := ha _ rfl
      exact .parked h he (by omega) (by omega) (.inr rfl)
  | busy h hle hs => exact .busy h (by omega) hs
  | finished h hb => exact .finished h hb
  | stopped h => exact .stopped h

theorem Stage.atHead (h : Stage c i now w wait bs) (he : wait.Ends now now')
    (hw : AtHead now' w w') : ∃ b bs', bs = b :: bs' ∧
      (now' < c.deadline → w'.nextFire = now' ∧ b.Next c i now') ∧
      (c.deadline ≤ now' → b.Last c i) := by
  cases h with
  | fresh h hn =>
    cases hw with
    | parked hp => simp [h] at hp
    | pausing hp => simp [h] at hp
  | @due h b bs hb hn hd =>
    cases hw with
    | parked hp => simp [h] at hp
    | pausing hp =>
      have hnow : now' = now := he
      refine ⟨b, bs, rfl, fun hlt => ?_, fun hle => ⟨_, by omega, hb⟩⟩
      have hfire : w.nextFire = now' := by omega
      exact ⟨hfire, hfire ▸ hb⟩
  | @pausing h b bs hb hle =>
    cases hw with
    | parked hp => simp [h] at hp
    | pausing hp =>
      have hnow : now' = max now (min w.nextFire c.deadline) := he
      refine ⟨b, bs, rfl, fun hlt => ?_, fun hle => ⟨_, by omega, hb⟩⟩
      have hfire : w.nextFire = now' := by omega
      exact ⟨hfire, hfire ▸ hb⟩
  | @parked h time e bs _ _ ht hle hwait =>
    cases hw with
    | pausing hp => simp [h] at hp
    | parked hp =>
      have hnow : now ≤ now' ∧ now' ≤ min (time + longest) c.deadline := by
        rcases hwait with rfl | rfl
        · have : now' = now := he
          omega
        · have : now' = max now (min (time + longest) c.deadline) := he
          omega
      refine ⟨_, bs, rfl, fun _ => ⟨rfl, ?_, ?_⟩, fun hd => ⟨now', hd, ?_, ?_⟩⟩ <;> omega
  | busy h hn hs =>
    cases hw with
    | pausing hp => simp [Worker.job?, hp] at h
    | parked hp => simp [Worker.job?, hp] at h
  | finished h hb => exact he.elim
  | stopped h => exact he.elim

theorem Stage.of_fresh (h : Stage c i now w wait bs) (hw : w.phase = .fresh) :
    bs = [] ∧ wait = .turn ∧ now = c.startedAt := by
  cases h with
  | fresh h hn => exact ⟨rfl, rfl, hn⟩
  | due h hb hn hd => simp [hw] at h
  | pausing h hb hle => simp [hw] at h
  | parked h he ht hle hwait => simp [hw] at h
  | busy h hle hs => simp [Worker.job?, hw] at h
  | finished h hb => simp [hw] at h
  | stopped h => simp [hw] at h

theorem Stage.of_job {job : Job α} (h : Stage c i now w wait bs) (hw : w.job? = some job) :
    ∃ sends bs', sends ≠ [] ∧ bs = .unit w.nextFire job sends none :: bs' ∧ w.nextFire ≤ now := by
  cases h with
  | busy h hle hs =>
    cases hw.symm.trans h
    exact ⟨_, _, hs, rfl, hle⟩
  | fresh h hn => simp [Worker.job?, h] at hw
  | due h hb hn hd => simp [Worker.job?, h] at hw
  | pausing h hb hle => simp [Worker.job?, h] at hw
  | parked h he ht hle hwait => simp [Worker.job?, h] at hw
  | finished h hb => simp [Worker.job?, h] at hw
  | stopped h => simp [Worker.job?, h] at hw

theorem Stage.woken {time : Int} (h : Stage c i now w (.alarm time) bs) (hw : w.isParked = true) :
    Stage c i now w .turn bs := by
  cases h with
  | parked h he ht hle hwait => exact .parked h he ht hle (.inl rfl)
  | pausing h hb hle => simp [Worker.isParked, h] at hw
  | busy h hle hs =>
    unfold Worker.job? at h
    unfold Worker.isParked at hw
    split at h <;> simp_all

structure OnTime (c : Course α) (i : Nat) (now : Int) (w : Worker α) (wait : Wait)
    (past : List (Event α)) (bs : List (Beat α)) : Prop where
  tells : Tells past bs
  schedule : Schedule c i bs
  stage : Stage c i now w wait bs

theorem ne_think_of_opens {jar : CookieJar} {e : Edition α} {act : Act}
    (h : Opens c now jar e act) (ms : Int) (x : Execution) (p : Execution.Progress) :
    act ≠ .think ms x p := by
  cases h with
  | scenario h random row hx =>
    rw [Execution.start, Execution.next]
    split
    · simp [Act.ofDemand]
    · split <;> simp [Act.ofDemand]
  | bare h ht => simp
  | nothing h ht => simp

theorem onTime_trace {past : List (Event α)} {job : Job α} {act : Act} {sends : List Int}
    (ht : Tells past (.unit w.nextFire job sends none :: bs))
    (hs : Schedule c i (.unit w.nextFire job sends none :: bs)) (hn : w.nextFire ≤ s.now)
    (hsends : sends = [] → w.nextFire = s.now ∧ ∀ ms x p, act ≠ .think ms x p) :
    ∃ bs', OnTime c i s.now (act.trace c i s w job).worker (act.trace c i s w job).wait
      ((act.trace c i s w job).events ++ past) bs' := by
  cases act with
  | send request purpose =>
    refine ⟨_, ht.sent i s.now request, hs.send fun h => (hsends h).1, ?_⟩
    exact .busy (w := { w with phase := .sending job purpose s.now _ }) rfl hn (by simp)
  | think ms x p =>
    have hne : sends ≠ [] := fun h => (hsends h).2 ms x p rfl
    refine ⟨_, ht, hs, ?_⟩
    exact .busy (w := { w with phase := .thinking job x p }) rfl hn hne
  | stop message => exact ⟨_, ht, hs, .stopped rfl⟩
  | complete jar work =>
    rw [Act.trace]
    dsimp only
    split
    · exact ⟨_, ht, hs, .stopped rfl⟩
    · exact ⟨_, ht.ended i s.now work, hs.stop hn, stage_pause rfl rfl (job.le_nextFire _ _)⟩

theorem le_firstFire (e : Edition α) : c.startedAt ≤ firstFire c i e := by
  rw [firstFire]
  split
  · exact Int.le_refl _
  · simp only [Clock.perMilli]
    omega

theorem onTime_of_moves {past : List (Event α)} {t : Trace α} (h : OnTime c i now w wait past bs)
    (he : wait.Ends now s.now) (hm : Moves c i s w t) :
    ∃ bs', OnTime c i s.now t.worker t.wait (t.events ++ past) bs' := by
  obtain ⟨ht, hs, hst⟩ := h
  cases hm with
  | begins hp hf =>
    subst hf
    obtain ⟨rfl, rfl, hstart⟩ := hst.of_fresh hp
    have hnow : s.now = c.startedAt := Eq.trans he hstart
    cases ht
    refine ⟨_, .begun i s.now s.edition, hnow ▸ .begun _, stage_pause rfl rfl ?_⟩
    exact hnow ▸ le_firstFire _
  | leaves hw hd =>
    obtain ⟨b, bs, rfl, -, hlast⟩ := hst.atHead he hw
    exact ⟨_, ht, hs, .finished rfl (hlast hd)⟩
  | @parks w' hw hd e _ hp =>
    obtain ⟨b, bs, rfl, hnext, -⟩ := hst.atHead he hw
    have hrate : (rateAt c s.now e).isPositive = false := (Pacing.delay?_eq_none_iff _ _).mp hp
    refine ⟨_, ht.parked i s.now e, .next ⟨hd, hrate⟩ (hnext hd).2 hs, ?_⟩
    refine .parked rfl rfl (Int.le_refl _) ?_ (.inr rfl)
    simp only [longest, Pacing.longestMs, Clock.perMilli]
    omega
  | @starts w' hw hd e _ delayMs hp act ha =>
    obtain ⟨b, bs, rfl, hnext, -⟩ := hst.atHead he hw
    have hfire : w'.nextFire = s.now := (hnext hd).1
    have ht' : Tells (.paced i s.now e (some delayMs) :: past)
        (.unit w'.nextFire ⟨e, delayMs⟩ [] none :: b :: bs) := by
      rw [hfire]
      exact ht.started i s.now ⟨e, delayMs⟩
    have hs' : Schedule c i (.unit w'.nextFire ⟨e, delayMs⟩ [] none :: b :: bs) := by
      rw [hfire]
      exact .next ⟨hd, hp, by simp, by simp⟩ (hnext hd).2 hs
    rw [Trace.after, List.append_assoc]
    exact onTime_trace (w := { w' with edition := some e }) ht' hs' (Int.le_of_eq hfire)
      fun _ => ⟨hfire, ne_think_of_opens ha⟩
  | @goesOn job act hg =>
    obtain ⟨sends, bs, hne, rfl, hle⟩ := hst.of_job hg.job
    exact onTime_trace ht hs (Int.le_trans hle he.le) fun h => absurd h hne

end

section

variable (c : Course α) (channel : Channel (Plan α) Unit) (r : Metrics.Recorder)

theorem local_onTime :
    Local c (Reachable c channel r) fun i now w wait past => ∃ bs, OnTime c i now w wait past bs where
  fresh _ := ⟨_, .fresh, .fresh, .fresh rfl rfl⟩
  wake hp h := by
    obtain ⟨bs, ht, hs, hst⟩ := h
    exact ⟨bs, ht, hs, hst.woken hp⟩
  later hw hn ha h := by
    obtain ⟨bs, ht, hs, hst⟩ := h
    exact ⟨bs, ht, hs, hst.later hw hn ha⟩
  move _ _ _ he h hm := by
    obtain ⟨bs, h⟩ := h
    exact onTime_of_moves h he hm

end

namespace Schedule

variable {c : Course α} {i : Nat} {b : Beat α} {bs : List (Beat α)}

theorem of_append {pre : List (Beat α)} (h : Schedule c i (pre ++ bs)) : Schedule c i bs := by
  induction pre with
  | nil => exact h
  | cons b pre ih =>
    cases hp : pre ++ bs with
    | nil =>
      rw [(List.append_eq_nil_iff.mp hp).2]
      exact .fresh
    | cons b' bs' =>
      rw [List.cons_append, hp] at h
      cases h with
      | next hb hn h => exact ih (hp ▸ h)

theorem slotEnd_le {time : Int} (h : Schedule c i (b :: bs)) (hn : b.Next c i time) :
    b.slotEnd ≤ time := by
  cases b with
  | begun start e =>
    cases h with
    | begun e => exact hn ▸ le_firstFire e
    | next hb hn h => exact hb.elim
  | park start e => exact hn.1
  | unit start job sends stop =>
    cases stop with
    | none => exact hn.elim
    | some stop =>
      cases h with
      | next hb _ h =>
        have hstop : start ≤ stop := hb.2.2.2 stop rfl
        rw [show time = job.nextFire start stop from hn]
        exact job.delay_le_nextFire hstop

theorem spaced (h : Schedule c i bs) : bs.Pairwise fun later b => b.slotEnd ≤ later.time := by
  induction h with
  | fresh => exact .nil
  | begun e => simp
  | @next b b' bs hb hn h ih =>
    refine List.pairwise_cons.mpr ⟨fun u hu => ?_, ih⟩
    have hle : b'.slotEnd ≤ b.time := h.slotEnd_le hn
    rcases List.mem_cons.mp hu with rfl | hu
    · exact hle
    · have hu' : u.slotEnd ≤ b'.time := (List.pairwise_cons.mp ih).1 u hu
      have := b'.time_le_slotEnd
      omega

theorem next_of_isPunctual {time : Int} (h : Schedule c i (b :: bs)) (hp : b.IsPunctual)
    (hn : b.Next c i time) : time = b.slotEnd := by
  cases b with
  | begun start e => exact hp.elim
  | park start e => exact hp.elim
  | unit start job sends stop =>
    cases stop with
    | none => exact hp.elim
    | some stop =>
      cases h with
      | next hb _ h =>
        have hstop : start ≤ stop := hb.2.2.2 stop rfl
        exact Eq.trans hn (job.nextFire_of_le hstop hp)

theorem steady {rest : List (Beat α)} {first : Beat α} {run : List (Beat α)}
    (h : Schedule c i (b :: run ++ first :: rest)) (hp : ∀ u ∈ first :: run, u.IsPunctual) :
    b.time = first.time + slots (run ++ [first]) := by
  induction run generalizing b with
  | nil =>
    cases h with
    | next hb hn h =>
      rw [h.next_of_isPunctual (hp first (by simp)) hn]
      simp only [List.nil_append, slots]
      omega
  | cons u run ih =>
    cases h with
    | next hb hn h =>
      have hu := ih h fun v hv => hp v (by
        rcases List.mem_cons.mp hv with rfl | hv
        · simp
        · simp [hv])
      rw [h.next_of_isPunctual (hp u (by simp)) hn]
      simp only [List.cons_append, slots]
      omega

end Schedule

/-- Worker `i` is due for the first time at the start, or some way into the first pause if there is
one. -/
def stagger (c : Course α) (i : Nat) (e : Edition α) : Int :=
  Pacing.stagger i c.workers ((Pacing.delay? (e.plan.load.rate Scalar.zero) c.workers).getD 0) *
    Clock.perMilli

theorem firstFire_eq (c : Course α) (i : Nat) (e : Edition α) :
    firstFire c i e = c.startedAt + stagger c i e := by
  rw [firstFire, stagger]
  cases Pacing.delay? (e.plan.load.rate Scalar.zero) c.workers with
  | none => simp [Pacing.stagger]
  | some delayMs => rfl

/-- Worker `i`, which stands as `w` in state `s`, is on schedule: the beats `bs` of which its events
tell are as they are due. -/
structure OnSchedule (c : Course α) (i : Nat) (s : State α) (w : Worker α) (bs : List (Beat α)) :
    Prop where
  tells : Tells (s.past i) bs
  schedule : Schedule c i bs
  first : ∀ pre b time e, bs = pre ++ [b, .begun time e] → b.time = c.startedAt + stagger c i e
  pausing : w.phase = .pausing → ∃ b ∈ bs.head?, b.Next c i w.nextFire ∧ s.now ≤ w.nextFire
  finished : w.phase = .finished → ∃ b ∈ bs.head?, b.Last c i
  isOver : s.isOver = true → w.phase = .finished ∨ w.phase = .stopped
  spaced : bs.Pairwise fun later b => b.slotEnd ≤ later.time
  steady : ∀ pre b run first rest, bs = pre ++ (b :: run ++ first :: rest) →
    (∀ u ∈ first :: run, u.IsPunctual) → b.time = first.time + slots (run ++ [first])

section

variable {c : Course α} {i : Nat} {s : State α} {w : Worker α} {wait : Wait} {bs : List (Beat α)}

theorem Schedule.first {pre : List (Beat α)} {b : Beat α} {time : Int} {e : Edition α}
    (h : Schedule c i (pre ++ [b, .begun time e])) : b.time = c.startedAt + stagger c i e := by
  cases h.of_append with
  | next hb hn h => exact Eq.trans hn (firstFire_eq c i e)

theorem Stage.of_parked {now : Int} (h : Stage c i now w wait bs) (hw : w.phase = .parked) :
    ∃ time e bs', bs = .park time e :: bs' ∧ w.edition = some e ∧ time ≤ now ∧
      now ≤ min (time + longest) c.deadline := by
  cases h with
  | parked h he ht hle hwait => exact ⟨_, _, _, rfl, he, ht, hle⟩
  | due h hb hn hd => simp [hw] at h
  | pausing h hb hle => simp [hw] at h
  | fresh h hn => simp [hw] at h
  | busy h hle hs => simp [Worker.job?, hw] at h
  | finished h hb => simp [hw] at h
  | stopped h => simp [hw] at h

theorem Stage.of_pausing {now : Int} (h : Stage c i now w wait bs) (hw : w.phase = .pausing) :
    ∃ b ∈ bs.head?, b.Next c i w.nextFire ∧ now ≤ w.nextFire := by
  cases h with
  | due h hb hn hd => exact ⟨_, rfl, hb, hn⟩
  | pausing h hb hle => exact ⟨_, rfl, hb, by omega⟩
  | fresh h hn => simp [hw] at h
  | parked h he ht hle hwait => simp [hw] at h
  | busy h hle hs => simp [Worker.job?, hw] at h
  | finished h hb => simp [hw] at h
  | stopped h => simp [hw] at h

theorem Stage.of_finished {now : Int} (h : Stage c i now w wait bs) (hw : w.phase = .finished) :
    ∃ b ∈ bs.head?, b.Last c i := by
  cases h with
  | finished h hb => exact ⟨_, rfl, hb⟩
  | due h hb hn hd => simp [hw] at h
  | pausing h hb hle => simp [hw] at h
  | fresh h hn => simp [hw] at h
  | parked h he ht hle hwait => simp [hw] at h
  | busy h hle hs => simp [Worker.job?, hw] at h
  | stopped h => simp [hw] at h

omit [Scalar α] in
theorem Worker.phase_of_isOver (h : w.isOver = true) : w.phase = .finished ∨ w.phase = .stopped := by
  unfold Worker.isOver at h
  split at h
  · next hp => exact .inl hp
  · next hp => exact .inr hp
  · cases h

end

/-- Every worker is on schedule in every state of a run. -/
theorem exists_onSchedule (setting : Setting α) (channel : Channel (Plan α) Unit)
    (r : Metrics.Recorder) (now : Int) {s : State α}
    (hs : Reachable (.ofPlan setting channel.current now) channel r s) {i : Nat} {w : Worker α}
    (hw : s.workers[i]? = some w) :
    ∃ bs, OnSchedule (.ofPlan setting channel.current now) i s w bs := by
  have hh := (local_onTime (.ofPlan setting channel.current now) channel r).holds hs
  obtain ⟨wait, hst⟩ := hh.stands i w hw
  obtain ⟨bs, ht, hsched, hstage⟩ := hst.holds
  refine ⟨bs, ht, hsched, ?_, hstage.of_pausing, hstage.of_finished, ?_, hsched.spaced, ?_⟩
  · rintro pre b time e rfl
    exact hsched.first
  · intro hover
    exact Worker.phase_of_isOver (hh.isOver hover hw).1
  · rintro pre b run first rest rfl hp
    exact hsched.of_append.steady hp

theorem exists_onSchedule_steady : ∃ (s : State Rat) (w : Worker Rat),
    s.isOver = true ∧ s.workers[1]? = some w ∧ (s.past 1).length = 31 ∧
      ∃ bs, OnSchedule (.ofPlan (.ofClient (steady 20000000)) (planOf 2 (1 : Rat) (.constant 20)) 0)
        1 s w bs := by
  have hs := reachable_stateAt (.ofClient (steady 20000000))
    (.ofPlan (planOf 2 (1 : Rat) (.constant 20))) (.create 1 false 0) 0 100
  have hlen : 1 < (stateAt (.ofClient (steady 20000000)) (.ofPlan (planOf 2 (1 : Rat) (.constant 20)))
      (.create 1 false 0) 0 100).workers.length := by decide +kernel
  have hw := List.getElem?_eq_getElem hlen
  exact ⟨_, _, by decide +kernel, hw, by decide +kernel, exists_onSchedule _ _ _ _ hs hw⟩

end LoadGenerator.Run
