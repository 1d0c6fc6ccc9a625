import LoadGenerator.Proofs.Run.Deadline
import LoadGenerator.Proofs.Run.Starts

namespace LoadGenerator.Run

open State

variable {α : Type}

def beatsOf : List (Event α) → List (Beat α)
  | [] => []
  | .begun _ time e :: _ => [.begun time e]
  | .paced _ time e none :: es => .park time e :: beatsOf es
  | .paced _ time e (some delayMs) :: es => .unit time ⟨e, delayMs⟩ [] none :: beatsOf es
  | .sent _ time _ _ :: es =>
    match beatsOf es with
    | .unit start job sends none :: bs => .unit start job (time :: sends) none :: bs
    | bs => bs
  | .ended _ time _ _ :: es =>
    match beatsOf es with
    | .unit start job sends none :: bs => .unit start job sends (some time) :: bs
    | bs => bs
  | .published _ _ _ :: es => beatsOf es

theorem Tells.beatsOf_eq {es : List (Event α)} {bs : List (Beat α)} (h : Tells es bs) :
    beatsOf es = bs := by
  induction h with
  | fresh => rfl
  | begun i time e => rfl
  | parked i time e h ih => rw [beatsOf, ih]
  | started i time job h ih => rw [beatsOf, ih]
  | sent i time request h ih => rw [beatsOf, ih]
  | ended i time work h ih => rw [beatsOf, ih]

/-- By time `now`, a unit has not taken longer than `ms` milliseconds. -/
def Beat.IsPrompt (now : Int) (ms : Nat) : Beat α → Prop
  | .unit start _ _ stop => stop.getD now ≤ start + ms * Clock.perMilli
  | _ => True

instance (now : Int) (ms : Nat) : (b : Beat α) → Decidable (b.IsPrompt now ms)
  | .begun _ _ => .isTrue trivial
  | .unit start _ _ stop =>
    inferInstanceAs (Decidable (stop.getD now ≤ start + ms * Clock.perMilli))
  | .park _ _ => .isTrue trivial

structure State.IsPrompt (s : State α) (ms : Nat) : Prop where
  sound : ∀ w ∈ s.workers, w.isStopped = false
  units : ∀ i < s.workers.length, ∀ b ∈ beatsOf (s.past i), b.IsPrompt s.now ms

/-- When worker `i` is due for the `k`th time, with a pause of `ms` milliseconds. -/
def fire (c : Course α) (ms i k : Nat) : Int :=
  c.startedAt + ((i * ms / c.workers + k * ms : Nat) : Int) * Clock.perMilli

/-- When the fleet is due for the `j`th time. -/
def tick (c : Course α) (ms j : Nat) : Int :=
  c.startedAt + ((j * ms / c.workers : Nat) : Int) * Clock.perMilli

section

variable {c : Course α} {ms i j k m : Nat}

theorem startedAt_le_fire : c.startedAt ≤ fire c ms i k := by
  have hnn : (0 : Int) ≤ (i * ms / c.workers + k * ms : Nat) := Int.natCast_nonneg _
  rw [fire, Clock.perMilli]
  linarith

theorem fire_succ : fire c ms i (k + 1) = fire c ms i k + ms * Clock.perMilli := by
  rw [fire, fire]
  push_cast
  ring

theorem fire_eq_add : fire c ms i k = fire c ms i 0 + k * (ms * Clock.perMilli) := by
  rw [fire, fire]
  push_cast
  ring

theorem fire_eq_tick (hn : 0 < c.workers) : fire c ms i k = tick c ms (k * c.workers + i) := by
  have hdiv : (k * c.workers + i) * ms / c.workers = i * ms / c.workers + k * ms := by
    rw [show (k * c.workers + i) * ms = i * ms + k * ms * c.workers by ring,
      Nat.add_mul_div_right _ _ hn]
  rw [fire, tick, hdiv]

theorem tick_mono (h : j ≤ k) : tick c ms j ≤ tick c ms k := by
  have hdiv : j * ms / c.workers ≤ k * ms / c.workers :=
    Nat.div_le_div_right (Nat.mul_le_mul_right ms h)
  rw [tick, tick, Clock.perMilli]
  omega

theorem fire_mono (hn : 0 < c.workers) (h : j ≤ k) : fire c ms i j ≤ fire c ms i k := by
  rw [fire_eq_tick hn, fire_eq_tick hn]
  exact tick_mono (Nat.add_le_add_right (Nat.mul_le_mul_right _ h) i)

theorem tick_mul (hn : 0 < c.workers) :
    tick c ms (c.workers * m) = c.startedAt + m * (ms * Clock.perMilli) := by
  have hdiv : c.workers * m * ms / c.workers = m * ms := by
    rw [Nat.mul_assoc, Nat.mul_div_cancel_left _ hn]
  rw [tick, hdiv]
  push_cast
  ring

theorem div_succ_mul {n : Nat} (hn : 0 < n) (ms j : Nat) :
    (j + 1) * ms / n = j * ms / n + ms / n ∨
      (j + 1) * ms / n = j * ms / n + (ms + n - 1) / n := by
  rw [Nat.succ_mul, Nat.add_div hn]
  split
  · next hcarry =>
    -- there is a remainder, so that the quotient is not the same rounded up
    have hrem : 0 < ms % n := by
      have := Nat.mod_lt (j * ms) hn
      omega
    have hup : (ms + n - 1) / n = ms / n + 1 := by
      have hms : ms + n - 1 = ms % n - 1 + n * (ms / n + 1) := by
        have := Nat.mod_add_div ms n
        rw [Nat.mul_succ]
        omega
      have hlt : ms % n - 1 < n := (Nat.sub_le _ _).trans_lt (Nat.mod_lt ms hn)
      rw [hms, Nat.add_mul_div_left _ _ hn, Nat.div_eq_of_lt hlt, Nat.zero_add]
    exact .inr (by rw [hup, Nat.add_assoc])
  · exact .inl rfl

theorem tick_succ (hn : 0 < c.workers) :
    tick c ms (j + 1) - tick c ms j = ((ms / c.workers : Nat) : Int) * Clock.perMilli ∨
      tick c ms (j + 1) - tick c ms j =
        (((ms + c.workers - 1) / c.workers : Nat) : Int) * Clock.perMilli := by
  rw [tick, tick]
  rcases div_succ_mul hn ms j with h | h
  · rw [h]
    push_cast
    exact .inl (by ring)
  · rw [h, Nat.cast_add]
    exact .inr (by ring)

theorem tick_lt (hms : 0 < ms) (h : j < c.workers * m) :
    tick c ms j < c.startedAt + m * (ms * Clock.perMilli) := by
  have hdiv : j * ms / c.workers < m * ms := by
    refine Nat.div_lt_of_lt_mul ?_
    rw [← Nat.mul_assoc]
    exact Nat.mul_lt_mul_of_pos_right h hms
  have hcast : ((j * ms / c.workers : Nat) : Int) < m * ms := by exact_mod_cast hdiv
  rw [tick, Clock.perMilli]
  linarith

theorem exists_tick_lt_iff (hn : 0 < c.workers) (hms : 0 < ms) (time : Int) :
    ∃ m, ∀ j, tick c ms j < time ↔ j < m := by
  have hend : ∃ j, time ≤ tick c ms j := by
    refine ⟨c.workers * (time - c.startedAt).toNat, ?_⟩
    rw [tick_mul hn, Clock.perMilli]
    have hself : (time - c.startedAt).toNat ≤ (time - c.startedAt).toNat * (ms * 1000000) :=
      Nat.le_mul_of_pos_right _ (by omega)
    zify at hself
    omega
  refine ⟨Nat.find hend, fun j => ⟨fun hlt => ?_, fun hlt => not_le.mp (Nat.find_min hend hlt)⟩⟩
  by_contra hge
  have hle := (Nat.find_spec hend).trans (tick_mono (not_lt.mp hge))
  omega

theorem fire_zero_lt (hms : 0 < ms) (hi : i < c.workers) :
    fire c ms i 0 < c.startedAt + ms * Clock.perMilli := by
  have hdiv : i * ms / c.workers < ms :=
    Nat.div_lt_of_lt_mul (Nat.mul_lt_mul_of_pos_right hi hms)
  have hcast : ((i * ms / c.workers : Nat) : Int) < ms := by exact_mod_cast hdiv
  rw [fire, Nat.zero_mul, Nat.add_zero, Clock.perMilli]
  linarith

theorem exists_fire_iff (hms : 0 < ms) (hi : i < c.workers) {time : Int}
    (h : c.startedAt ≤ time) :
    ∃ q, ∀ k, (time ≤ fire c ms i k ∧ fire c ms i k < time + ms * Clock.perMilli) ↔ k = q := by
  have hn : 0 < c.workers := by omega
  have hdue : ∃ k, time ≤ fire c ms i k := by
    refine ⟨(time - c.startedAt).toNat, ?_⟩
    have hself : (time - c.startedAt).toNat ≤ (time - c.startedAt).toNat * (ms * 1000000) :=
      Nat.le_mul_of_pos_right _ (by omega)
    have hstart : c.startedAt ≤ fire c ms i 0 := startedAt_le_fire
    rw [fire_eq_add, Clock.perMilli]
    zify at hself
    omega
  have hfirst : fire c ms i (Nat.find hdue) < time + ms * Clock.perMilli := by
    cases hq : Nat.find hdue with
    | zero =>
      have := fire_zero_lt hms hi
      omega
    | succ q =>
      have hlt : fire c ms i q < time := not_le.mp (Nat.find_min hdue (by omega))
      rw [fire_succ]
      omega
  refine ⟨Nat.find hdue, fun k => ⟨fun h => ?_, ?_⟩⟩
  · obtain ⟨hle, hlt⟩ := h
    refine le_antisymm (not_lt.mp fun hk => ?_) (Nat.find_min' hdue hle)
    have hnext : fire c ms i (Nat.find hdue + 1) ≤ fire c ms i k := fire_mono hn hk
    have hspec := Nat.find_spec hdue
    rw [fire_succ] at hnext
    omega
  · rintro rfl
    exact ⟨Nat.find_spec hdue, hfirst⟩

end

variable [Scalar α]

section

variable {c : Course α} {ms i : Nat} {now : Int} {w : Worker α} {wait : Wait} {b : Beat α}
  {bs : List (Beat α)}

def Beat.due (c : Course α) (ms i : Nat) : Beat α → Int
  | .begun _ _ => fire c ms i 0
  | .unit start _ _ _ => start + ms * Clock.perMilli
  | .park time _ => time

def dueAfter (c : Course α) (ms i : Nat) : List (Beat α) → Int
  | [] => fire c ms i 0
  | b :: _ => b.due c ms i

theorem due_of_next {time : Int} (hi : i < c.workers) (hp : b.Paced c i ms)
    (hq : b.IsPrompt now ms) (hn : b.Next c i time) : time = b.due c ms i := by
  cases b with
  | begun start e =>
    have hfirst : time = firstFire c i e := hn
    rw [hfirst, hp.2, Beat.due, fire, Pacing.stagger, if_neg (by omega), Nat.mod_eq_of_lt hi]
    simp [Nat.mul_comm]
  | park start e => exact hp.elim
  | unit start job sends stop =>
    cases stop with
    | none => exact hn.elim
    | some stop =>
      obtain ⟨rfl, -, hstop⟩ := hp
      exact Eq.trans hn (job.nextFire_of_le (hstop stop rfl) hq)

theorem Schedule.exists_fires (h : Schedule c i bs) (hi : i < c.workers)
    (hp : ∀ b ∈ bs, b.Paced c i ms) (hq : ∀ b ∈ bs, b.IsPrompt now ms) :
    ∃ k, bs.filterMap Beat.start? = ((List.range k).map (fire c ms i)).reverse ∧
      dueAfter c ms i bs = fire c ms i k := by
  induction h with
  | fresh => exact ⟨0, rfl, rfl⟩
  | begun e => exact ⟨0, rfl, rfl⟩
  | @next b b' bs hb hn h ih =>
    obtain ⟨hpb, hpbs⟩ := List.forall_mem_cons.mp hp
    obtain ⟨-, hqbs⟩ := List.forall_mem_cons.mp hq
    obtain ⟨k, hstarts, hdue⟩ := ih hpbs hqbs
    have htime : b.time = fire c ms i k :=
      (due_of_next hi (hpbs b' (by simp)) (hqbs b' (by simp)) hn).trans hdue
    cases b with
    | begun time e => exact hb.elim
    | park time e => exact hpb.elim
    | unit start job sends stop =>
      obtain rfl : start = fire c ms i k := htime
      refine ⟨k + 1, ?_, fire_succ.symm⟩
      rw [List.filterMap_cons, hstarts, List.range_succ, List.map_append, List.reverse_append]
      rfl

theorem Stage.le_due (h : Stage c i now w wait bs) (hi : i < c.workers)
    (hw : w.isStopped = false) (hp : ∀ b ∈ bs, b.Paced c i ms) (hq : ∀ b ∈ bs, b.IsPrompt now ms) :
    min now c.deadline ≤ dueAfter c ms i bs := by
  have hnext {b : Beat α} {time : Int} (hp : b.Paced c i ms) (hq : b.IsPrompt now ms)
      (hn : b.Next c i time) (ht : min now c.deadline ≤ time) : min now c.deadline ≤ b.due c ms i :=
    ht.trans (due_of_next hi hp hq hn).le
  cases h with
  | fresh h hn => exact hn ▸ (min_le_left _ _).trans startedAt_le_fire
  | due h hb hn hd => exact hnext (hp _ List.mem_cons_self) (hq _ List.mem_cons_self) hb (by omega)
  | pausing h hb hn => exact hnext (hp _ List.mem_cons_self) (hq _ List.mem_cons_self) hb (by omega)
  | parked h he ht hn hwait => exact (hp _ List.mem_cons_self).elim
  | busy h hn hs => exact (min_le_left _ _).trans (hq _ List.mem_cons_self)
  | finished h hb =>
    obtain ⟨time, ht, hb⟩ := hb
    exact hnext (hp _ List.mem_cons_self) (hq _ List.mem_cons_self) hb (by omega)
  | stopped h => simp [Worker.isStopped, h] at hw

theorem start?_lt_deadline (hp : ∀ b ∈ bs, b.Paced c i ms) :
    ∀ time ∈ bs.filterMap Beat.start?, time < c.deadline := by
  intro time ht
  obtain ⟨b, hb, hstart⟩ := List.mem_filterMap.mp ht
  cases b with
  | begun time e => cases hstart
  | unit start job sends stop =>
    cases hstart
    exact (hp _ hb).2.1
  | park time e => cases hstart

end

/-- Each worker has fired whenever it was due, and at no other time. -/
structure Punctual (c : Course α) (ms : Nat) (s : State α) : Prop where
  fires : ∀ i < c.workers, ∃ k, s.startsOf i = (List.range k).map (fire c ms i) ∧
    min s.now c.deadline ≤ fire c ms i k
  inTime : ∀ i < c.workers, ∀ time ∈ s.startsOf i, time < c.deadline

theorem punctual {c : Course α} {channel : Channel (Plan α) Unit} {r : Metrics.Recorder}
    {s : State α} (hs : Reachable c channel r s) {ms : Nat}
    (hc : c.Paces (c.plans channel.current) ms) (hq : s.IsPrompt ms) : Punctual c ms s := by
  have hone (i : Nat) (hi : i < c.workers) : (∃ k, s.startsOf i = (List.range k).map (fire c ms i) ∧
      min s.now c.deadline ≤ fire c ms i k) ∧ ∀ time ∈ s.startsOf i, time < c.deadline := by
    obtain ⟨w, wait, bs, hw, h⟩ := exists_inForce hs hi
    obtain ⟨⟨ht, hsched, hstage⟩, hplans⟩ := h
    have hpaced := hsched.paced hc hplans
    have hprompt : ∀ b ∈ bs, b.IsPrompt s.now ms := by
      rw [← ht.beatsOf_eq]
      exact hq.units i (hs.interleaved.length_workers ▸ hi)
    obtain ⟨k, hstarts, hdue⟩ := hsched.exists_fires hi hpaced hprompt
    have hle := hstage.le_due hi (hq.sound w hw) hpaced hprompt
    rw [startsOf_eq ht]
    refine ⟨⟨k, by rw [hstarts, List.reverse_reverse], hdue ▸ hle⟩, fun time htime => ?_⟩
    exact start?_lt_deadline hpaced time (List.mem_reverse.mp htime)
  exact ⟨fun i hi => (hone i hi).1, fun i hi => (hone i hi).2⟩

section

omit [Scalar α]

variable {c : Course α} {ms m : Nat} {s : State α}

theorem flatMap_turns_perm {n : Nat} (hn : 0 < n) {turns : Nat → Nat}
    (ht : ∀ j < m, j / n < turns (j % n)) :
    ((List.range n).flatMap fun i =>
      ((List.range (turns i)).filter fun k => k * n + i < m).map fun k => k * n + i).Perm
        (List.range m) := by
  refine (List.perm_ext_iff_of_nodup ?_ List.nodup_range).mpr fun j => ?_
  · refine List.nodup_flatMap.mpr ⟨fun i _ => ?_, ?_⟩
    · refine (List.nodup_range.filter _).map fun a b hab => ?_
      exact Nat.eq_of_mul_eq_mul_right hn (Nat.add_right_cancel hab)
    · refine List.nodup_range.imp_of_mem fun {i i'} hi hi' hne => ?_
      -- what is left of a turn tells whose it is
      intro j hj hj'
      obtain ⟨k, -, rfl⟩ := List.mem_map.mp hj
      obtain ⟨k', -, heq⟩ := List.mem_map.mp hj'
      have hmod := congrArg (· % n) heq
      simp only [Nat.mul_add_mod_self_right, Nat.mod_eq_of_lt (List.mem_range.mp hi),
        Nat.mod_eq_of_lt (List.mem_range.mp hi')] at hmod
      exact hne hmod.symm
  · simp only [List.mem_flatMap, List.mem_range, List.mem_map, List.mem_filter, decide_eq_true_eq]
    constructor
    · rintro ⟨i, -, k, ⟨-, hlt⟩, rfl⟩
      exact hlt
    · intro hj
      have hdiv : j / n * n + j % n = j := by
        rw [Nat.mul_comm]
        exact Nat.div_add_mod j n
      exact ⟨j % n, Nat.mod_lt j hn, j / n, ⟨ht j hj, hdiv.symm ▸ hj⟩, hdiv⟩

theorem Punctual.merged (h : Punctual c ms s) (hn : 0 < c.workers) (hms : 0 < ms)
    (hperm : ((List.range c.workers).flatMap s.startsOf).Perm s.starts)
    (hord : s.starts.Pairwise (· ≤ ·)) :
    ∃ m, (∀ j, tick c ms j < min s.now c.deadline ↔ j < m) ∧
      s.starts.filter (· < min s.now c.deadline) = (List.range m).map (tick c ms) := by
  obtain ⟨m, hm⟩ := exists_tick_lt_iff hn hms (min s.now c.deadline)
  choose! turns hturns hlate using h.fires
  have hsome (j : Nat) (hj : j < m) : j / c.workers < turns (j % c.workers) := by
    have hfire : fire c ms (j % c.workers) (j / c.workers) = tick c ms j := by
      rw [fire_eq_tick hn, Nat.mul_comm, Nat.div_add_mod]
    have hlt := (hm j).mpr hj
    have hle := hlate _ (Nat.mod_lt j hn)
    by_contra hge
    have hmono : fire c ms (j % c.workers) (turns (j % c.workers)) ≤
        fire c ms (j % c.workers) (j / c.workers) := fire_mono hn (not_lt.mp hge)
    omega
  have hone (i : Nat) (hi : i < c.workers) :
      (s.startsOf i).filter (· < min s.now c.deadline) =
        (((List.range (turns i)).filter fun k => k * c.workers + i < m).map
          fun k => k * c.workers + i).map (tick c ms) := by
    have hfire : fire c ms i = tick c ms ∘ fun k => k * c.workers + i :=
      funext fun k => fire_eq_tick hn
    rw [hturns i hi, List.filter_map, List.map_map, hfire]
    congr 1
    exact List.filter_congr fun k _ => decide_eq_decide.mpr (hm _)
  refine ⟨m, hm, List.Perm.eq_of_pairwise (fun a b _ _ => le_antisymm) (hord.filter _) ?_ ?_⟩
  · exact List.pairwise_map.mpr (List.pairwise_lt_range.imp fun hlt => tick_mono hlt.le)
  · refine (hperm.symm.filter _).trans ?_
    rw [List.filter_flatMap, List.flatMap_congr fun i hi => hone i (List.mem_range.mp hi),
      ← List.map_flatMap]
    exact (flatMap_turns_perm hn hsome).map _

theorem Punctual.length_starts (h : Punctual c ms s) (hn : 0 < c.workers) (hms : 0 < ms)
    (hperm : ((List.range c.workers).flatMap s.startsOf).Perm s.starts)
    (hm : ∀ j, tick c ms j < min s.now c.deadline ↔ j < m)
    (hmerged : s.starts.filter (· < min s.now c.deadline) = (List.range m).map (tick c ms))
    {q : Nat} (hd : c.deadline = c.startedAt + q * (ms * Clock.perMilli))
    (hnow : c.deadline ≤ s.now) : s.starts.length = c.workers * q := by
  rw [min_eq_right hnow] at hm hmerged
  have hall : s.starts.filter (· < c.deadline) = s.starts := by
    refine List.filter_eq_self.mpr fun time ht => decide_eq_true ?_
    obtain ⟨i, hi, ht⟩ := List.mem_flatMap.mp (hperm.mem_iff.mpr ht)
    exact h.inTime i (List.mem_range.mp hi) time ht
  have hle : m ≤ c.workers * q := by
    have hend := (hm (c.workers * q)).not
    rw [tick_mul hn, ← hd] at hend
    exact not_lt.mp (hend.mp (lt_irrefl _))
  have hge : c.workers * q ≤ m := by
    by_contra hlt
    have htick := tick_lt (c := c) hms (not_le.mp hlt)
    rw [← hd, hm] at htick
    exact lt_irrefl m htick
  rw [← hall, hmerged, List.length_map, List.length_range]
  exact le_antisymm hle hge

theorem Punctual.countP_window (h : Punctual c ms s) (hms : 0 < ms) {i : Nat} (hi : i < c.workers)
    {time : Int} (hstart : c.startedAt ≤ time)
    (hend : time + ms * Clock.perMilli ≤ min s.now c.deadline) :
    (s.startsOf i).countP (fun t => time ≤ t ∧ t < time + ms * Clock.perMilli) = 1 := by
  obtain ⟨k, hk, hlate⟩ := h.fires i hi
  obtain ⟨q, hq⟩ := exists_fire_iff hms hi hstart
  have hlt : q < k := by
    by_contra hge
    have hmono : fire c ms i k ≤ fire c ms i q := fire_mono (by omega) (not_lt.mp hge)
    have := ((hq q).mpr rfl).2
    omega
  have hcount : (List.range k).countP ((fun t => decide (time ≤ t ∧
      t < time + ms * Clock.perMilli)) ∘ fire c ms i) = (List.range k).count q := by
    refine List.countP_congr fun j _ => ?_
    simpa using hq j
  rw [hk, List.countP_map, hcount, List.count_range, if_pos hlt]

end

/-- The fleet has fired evenly, with a pause of `ms` milliseconds. -/
structure FiresEvenly (c : Course α) (ms : Nat) (s : State α) : Prop extends Punctual c ms s where
  isOver : s.isOver = true → c.deadline ≤ s.now
  /-- The starts of all workers are the ticks of the fleet; those at `now` may still be missing. -/
  merged : ∃ m, s.starts.filter (· < min s.now c.deadline) = (List.range m).map (tick c ms)
  gaps : (s.starts.filter (· < min s.now c.deadline)).IsChain fun t u =>
    u - t = ((ms / c.workers : Nat) : Int) * Clock.perMilli ∨
      u - t = (((ms + c.workers - 1) / c.workers : Nat) : Int) * Clock.perMilli
  windows : ∀ i < c.workers, ∀ time, c.startedAt ≤ time →
    time + ms * Clock.perMilli ≤ min s.now c.deadline →
    (s.startsOf i).countP (fun t => time ≤ t ∧ t < time + ms * Clock.perMilli) = 1
  total : ∀ m : Nat, c.deadline = c.startedAt + m * (ms * Clock.perMilli) → c.deadline ≤ s.now →
    s.starts.length = c.workers * m

/-- A fleet with one pause fires evenly, as long as no unit takes longer than that. -/
theorem fires_evenly (setting : Setting α) (channel : Channel (Plan α) Unit)
    (r : Metrics.Recorder) (now : Int) {ms : Nat} (hn : 0 < channel.current.workers)
    (hms : 0 < ms)
    (hc : (Course.ofPlan setting channel.current now).Paces
      (channel.current :: setting.news.map (·.2)) ms) {s : State α}
    (hs : Reachable (.ofPlan setting channel.current now) channel r s) (hq : s.IsPrompt ms) :
    FiresEvenly (.ofPlan setting channel.current now) ms s := by
  have h := punctual hs hc hq
  have hperm := starts_perm hs
  obtain ⟨m, hm, hmerged⟩ := h.merged hn hms hperm (pairwise_starts hs)
  refine ⟨h, fun hover => ?_, ⟨m, hmerged⟩, ?_, fun i hi time => h.countP_window hms hi, ?_⟩
  · obtain ⟨w, hw⟩ : ∃ w, w ∈ s.workers :=
      List.exists_mem_of_length_pos (by rw [hs.interleaved.length_workers]; exact hn)
    exact deadline_le_now hs hover hw (hq.sound w hw)
  · rw [hmerged, List.isChain_map, List.isChain_range]
    exact fun j _ => tick_succ hn
  · exact fun q => h.length_starts hn hms hperm hm hmerged

theorem fires_evenly_steady : ∃ s : State Rat, s.isOver = true ∧
    FiresEvenly (.ofPlan (.ofClient (steady 20000000)) (planOf 3 (3 / 10 : Rat) (.constant 30)) 0)
      100 s ∧ s.starts.length = 9 := by
  have hs := reachable_stateAt (.ofClient (steady 20000000))
    (.ofPlan (planOf 3 (3 / 10 : Rat) (.constant 30))) (.create 1 false 0) 0 100
  have hd : Pacing.delay? (.perSecond (30 : Rat)) 3 = some 100 := by decide +kernel
  have hc : (Course.ofPlan (.ofClient (steady 20000000)) (planOf 3 (3 / 10 : Rat) (.constant 30))
      0).Paces [planOf 3 (3 / 10 : Rat) (.constant 30)] 100 := paces_of_constant hd (by simp [planOf])
  have h := fires_evenly _ _ _ _ (by decide +kernel) (by decide) hc hs
    ⟨by decide +kernel, by decide +kernel⟩
  exact ⟨_, by decide +kernel, h, by decide +kernel⟩

end LoadGenerator.Run
