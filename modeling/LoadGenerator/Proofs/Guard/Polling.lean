import LoadGenerator.Proofs.Guard.Readings
import Mathlib.Data.Rat.Floor

namespace LoadGenerator

open Metrics

/-- A time that fits in a signed word of 64 bits. -/
def Clock.Shows (time : Int) : Prop := -(Word.half : Int) ≤ time ∧ time < Word.half

instance (time : Int) : Decidable (Clock.Shows time) := inferInstanceAs (Decidable (_ ∧ _))

theorem Clock.Shows.between {a b time : Int} (ha : Shows a) (hb : Shows b) (hat : a ≤ time)
    (htb : time ≤ b) : Shows time :=
  ⟨ha.1.trans hat, htb.trans_lt hb.2⟩

theorem Clock.word_add_word {a b : Int} (h : Shows (a + b)) : word (a + word b) = a + b := by
  rw [word, word, Int.add_bmod_bmod]
  exact Int.bmod_eq_of_le h.1 h.2

/-- A reading that goes wrong, and is not merely unknown. -/
def Memory.Reading.IsBroken (reading : Memory.Reading) : Prop :=
  ∃ message, reading = .broken message

variable {α : Type}

theorem GuardState.evaluate_keeps [Scalar α] (c : GuardConfig α) (now : Int) (usage : α)
    (s : GuardState α) :
    (s.evaluate c now usage).1.active = s.active ∧ (s.evaluate c now usage).1.limit = s.limit ∧
      (s.evaluate c now usage).1.stopped = s.stopped := by
  rw [evaluate]
  generalize (decide (c.warning ≤ usage) && !s.warningLatched) = warned
  generalize (decide (c.critical ≤ usage) && !s.criticalLatched) = critical
  obtain ⟨disabledAt, hd⟩ := noteDisabled_eq c now warned
    { s with
      last := usage
      warningLatched := s.warningLatched || warned
      criticalLatched := s.criticalLatched || critical
      warnings := s.warnings + warned.toNat
      criticals := s.criticals + critical.toNat }
  simp only [hd]
  split
  · exact ⟨rfl, rfl, rfl⟩
  · split <;> exact ⟨rfl, rfl, rfl⟩

namespace GuardWatch

variable {g g' g'' : GuardWatch α} {now deadline : Int} {r : Recorder} {notices : List Notice}
  {source : Memory.Source}

structure Keeps (g g' : GuardWatch α) : Prop where
  config : g'.config = g.config
  source : g'.source = g.source
  active : g'.state.active = g.state.active
  limit : g'.state.limit = g.state.limit
  stopped : g'.state.stopped = g.state.stopped

theorem Keeps.refl (g : GuardWatch α) : Keeps g g := ⟨rfl, rfl, rfl, rfl, rfl⟩

theorem Keeps.trans (h : Keeps g g') (h' : Keeps g' g'') : Keeps g g'' where
  config := h'.config.trans h.config
  source := h'.source.trans h.source
  active := h'.active.trans h.active
  limit := h'.limit.trans h.limit
  stopped := h'.stopped.trans h.stopped

variable [Scalar α]

theorem keeps_evaluate (g : GuardWatch α) (now : Int) (usage : α) (r : Recorder) :
    Keeps g (g.evaluate now usage r).1 := by
  obtain ⟨hactive, hlimit, hstopped⟩ := g.state.evaluate_keeps g.config now usage
  exact ⟨rfl, rfl, hactive, hlimit, hstopped⟩

theorem keeps_take (g : GuardWatch α) (now : Int) (reading : Memory.Reading) (r : Recorder) :
    Keeps g (g.take now reading r).1 ∧ (g.take now reading r).1.readAt = g.readAt := by
  cases reading with
  | bytes usage =>
    rw [take, Guard.tick]
    cases g.state.active with
    | false => exact ⟨.refl g, rfl⟩
    | true =>
      cases g.state.limit with
      | none => exact ⟨.refl g, rfl⟩
      | some limit => exact ⟨keeps_evaluate g now _ r, rfl⟩
  | unknown => exact ⟨.refl g, rfl⟩
  | broken message => exact ⟨.refl g, rfl⟩

omit [Scalar α] in
theorem read_eq (hactive : g.state.active = true) (hsource : g.source = some source) :
    g.read? now = some (source.usage g.readAt.length, { g with readAt := now :: g.readAt }) := by
  rw [read?, hactive, hsource]

theorem keeps_tick (g : GuardWatch α) (now : Int) (r : Recorder) :
    Keeps g (g.tick now r).1 := by
  rw [tick]
  cases hread : g.read? now with
  | none => exact .refl g
  | some p =>
    obtain ⟨reading, g₁⟩ := p
    obtain rfl := eq_of_read hread
    have hread : Keeps g { g with readAt := now :: g.readAt } := ⟨rfl, rfl, rfl, rfl, rfl⟩
    exact hread.trans (keeps_take _ now reading r).1

theorem readAt_tick (hactive : g.state.active = true) (hsource : g.source = some source) :
    (g.tick now r).1.readAt = now :: g.readAt := by
  rw [tick, read_eq hactive hsource]
  exact (keeps_take _ now _ r).2

theorem keeps_poll (g : GuardWatch α) (now deadline : Int) (r : Recorder)
    (notices : List Notice) : Keeps g (g.poll now deadline r notices).1 := by
  fun_induction poll g now deadline r notices with
  | case1 g now r notices hgo g' r' a more ht next hnext ih =>
    have htick := keeps_tick g now r
    rw [ht] at htick
    exact htick.trans ih
  | case2 g now r notices hgo g' r' a more ht next hnext =>
    have htick := keeps_tick g now r
    rw [ht] at htick
    exact htick
  | case3 g now r notices hgo => exact .refl g

def interval (g : GuardWatch α) : Int := g.config.intervalMs * Clock.perMilli

def times (now interval : Int) : Nat → List Int
  | 0 => []
  | k + 1 => (now + k * interval) :: times now interval k

/-- The number of intervals that begin within `horizon` nanoseconds. -/
def begunWithin (interval horizon : Int) : Nat := ⌈(horizon / interval : Rat)⌉₊

theorem lt_begunWithin_iff {interval horizon : Int} (h : 0 < interval) (k : Nat) :
    k < begunWithin interval horizon ↔ k * interval < horizon := by
  have hpos : (0 : Rat) < interval := Int.cast_pos.mpr h
  rw [begunWithin, Nat.lt_ceil, lt_div_iff₀ hpos]
  exact_mod_cast Iff.rfl

theorem add_interval (now interval : Int) (k : Nat) :
    now + (k + 1 : Nat) * interval = now + k * interval + interval := by
  push_cast
  ring

theorem mem_times {now interval : Int} {n : Nat} {t : Int} :
    t ∈ times now interval n ↔ ∃ k < n, t = now + k * interval := by
  induction n with
  | zero => simp [times]
  | succ n ih => rw [times, List.mem_cons, ih, Nat.exists_lt_succ_right, or_comm]

omit [Scalar α] in
theorem nextWake_eq (h : Clock.Shows (now + g.interval)) :
    g.nextWake now deadline = min (now + g.interval) deadline := by
  change min (Clock.word (now + Clock.word g.interval)) deadline = _
  rw [Clock.word_add_word h]

theorem poll_of_ended (h : deadline ≤ now) :
    g.poll now deadline r notices = (g, r, now, notices) := by
  have hends : ¬g.goesOn now deadline = true := by simp [goesOn, h]
  rw [poll, if_neg hends]

section

variable (hactive : g.state.active = true) (hstopped : g.state.stopped = false)
  (hsource : g.source = some source) (hnow : now < deadline)

include hactive hstopped hsource hnow

theorem exists_poll_eq (r : Recorder) (notices : List Notice)
    (hgood : ¬(source.usage g.readAt.length).IsBroken) (hnext : now < g.nextWake now deadline) :
    ∃ g' r' notices',
      g.poll now deadline r notices = g'.poll (g.nextWake now deadline) deadline r' notices' ∧
        Keeps g g' ∧ g'.readAt = now :: g.readAt := by
  have hgoes : g.goesOn now deadline = true := by simp [goesOn, hstopped, hnow]
  have hwell : ¬g.breaksDown now = true := by
    rw [breaksDown, read_eq hactive hsource]
    cases hreading : source.usage g.readAt.length with
    | broken message => exact absurd ⟨message, hreading⟩ hgood
    | bytes n => nofun
    | unknown => nofun
  refine ⟨(g.tick now r).1, (g.tick now r).2.1, notices ++ (g.tick now r).2.2.2, ?_,
    keeps_tick g now r, readAt_tick hactive hsource⟩
  rw [poll, if_pos hgoes]
  exact if_pos ⟨hnext, hwell⟩

theorem poll_of_broken (r : Recorder) (notices : List Notice)
    (hbroken : (source.usage g.readAt.length).IsBroken) :
    (g.poll now deadline r notices).1.readAt = now :: g.readAt ∧
      (g.poll now deadline r notices).2.2.1 = now := by
  obtain ⟨message, hreading⟩ := hbroken
  have hgoes : g.goesOn now deadline = true := by simp [goesOn, hstopped, hnow]
  have hbreaks : g.breaksDown now = true := by
    rw [breaksDown, read_eq hactive hsource, hreading]
  have hlast : ¬(now < g.nextWake now deadline ∧ ¬g.breaksDown now = true) := fun h => h.2 hbreaks
  have heq : g.poll now deadline r notices =
      ((g.tick now r).1, (g.tick now r).2.1, now, notices ++ (g.tick now r).2.2.2) := by
    rw [poll, if_pos hgoes]
    exact if_neg hlast
  rw [heq]
  exact ⟨readAt_tick hactive hsource, rfl⟩

omit hnow in
theorem exists_poll_after (r : Recorder) (notices : List Notice) (hinterval : 0 < g.interval)
    {k : Nat} (hgood : ∀ j < k, ¬(source.usage (g.readAt.length + j)).IsBroken)
    (hlater : now + k * g.interval < deadline) (hshows : Clock.Shows now)
    (hlast : Clock.Shows (now + k * g.interval)) : ∃ g' r' notices',
      g.poll now deadline r notices = g'.poll (now + k * g.interval) deadline r' notices' ∧
        Keeps g g' ∧ g'.readAt = times now g.interval k ++ g.readAt ∧
          g'.readAt.length = g.readAt.length + k := by
  induction k with
  | zero => exact ⟨g, r, notices, by simp, .refl g, rfl, rfl⟩
  | succ k ih =>
    rw [add_interval] at hlater hlast ⊢
    have hbefore : 0 ≤ k * g.interval := mul_nonneg (Int.natCast_nonneg k) hinterval.le
    have hlate : now + k * g.interval < deadline := by omega
    obtain ⟨g₁, r₁, notices₁, hpoll, hkeeps, hread, hcount⟩ :=
      ih (fun j hj => hgood j (by omega)) hlate (hshows.between hlast (by omega) (by omega))
    have hsame : g₁.interval = g.interval := by rw [interval, interval, hkeeps.config]
    have hnext : g₁.nextWake (now + k * g.interval) deadline =
        now + k * g.interval + g.interval := by
      rw [nextWake_eq (by rwa [hsame]), hsame, min_eq_left hlater.le]
    obtain ⟨g₂, r₂, notices₂, hpoll₂, hkeeps₂, hread₂⟩ :=
      exists_poll_eq (hkeeps.active.trans hactive) (hkeeps.stopped.trans hstopped)
        (hkeeps.source.trans hsource) hlate r₁ notices₁ (by rw [hcount]; exact hgood k (by omega))
        (by omega)
    rw [hnext] at hpoll₂
    refine ⟨g₂, r₂, notices₂, hpoll.trans hpoll₂, hkeeps.trans hkeeps₂, ?_, ?_⟩
    · rw [hread₂, hread]
      rfl
    · rw [hread₂, List.length_cons, hcount]
      rfl

end

section

variable {horizon : Int}

theorem exists_begunWithin_eq {interval : Int} (hinterval : 0 < interval) (hhorizon : 0 < horizon) :
    ∃ m, begunWithin interval horizon = m + 1 ∧ m * interval < horizon ∧
      horizon ≤ m * interval + interval := by
  have hpos : 0 < begunWithin interval horizon := by
    rw [lt_begunWithin_iff hinterval]
    simpa using hhorizon
  obtain ⟨m, hm⟩ := Nat.exists_eq_add_of_lt hpos
  rw [Nat.zero_add] at hm
  have hlast : m * interval < horizon := (lt_begunWithin_iff hinterval m).mp (by omega)
  have hend : ¬(m + 1 : Nat) * interval < horizon :=
    mt (lt_begunWithin_iff hinterval (m + 1)).mpr (by omega)
  refine ⟨m, hm, hlast, ?_⟩
  push_cast at hend
  linarith

variable (hactive : g.state.active = true) (hstopped : g.state.stopped = false)
  (hsource : g.source = some source) (hinterval : 0 < g.interval) (hhorizon : 0 < horizon)
  (hshows : Clock.Shows now)
  (hend : Clock.Shows (now + begunWithin g.interval horizon * g.interval))

include hactive hstopped hsource hinterval hhorizon hshows hend

theorem poll_of_good
    (hgood : ∀ k < begunWithin g.interval horizon,
      ¬(source.usage (g.readAt.length + k)).IsBroken) :
    (g.poll now (now + horizon) r notices).1.readAt =
        times now g.interval (begunWithin g.interval horizon) ++ g.readAt ∧
      (g.poll now (now + horizon) r notices).2.2.1 = now + horizon := by
  obtain ⟨m, hm, hlast, hnone⟩ := exists_begunWithin_eq hinterval hhorizon
  rw [hm] at hend hgood ⊢
  rw [add_interval] at hend
  have hbefore : 0 ≤ m * g.interval := mul_nonneg (Int.natCast_nonneg m) hinterval.le
  have hlate : now + m * g.interval < now + horizon := by omega
  obtain ⟨g₁, r₁, notices₁, hpoll, hkeeps, hread, hcount⟩ :=
    exists_poll_after hactive hstopped hsource r notices hinterval
      (fun j hj => hgood j (by omega)) hlate hshows (hshows.between hend (by omega) (by omega))
  have hsame : g₁.interval = g.interval := by rw [interval, interval, hkeeps.config]
  have hnext : g₁.nextWake (now + m * g.interval) (now + horizon) = now + horizon := by
    rw [nextWake_eq (by rwa [hsame]), hsame, min_eq_right (by omega)]
  obtain ⟨g₂, r₂, notices₂, hpoll₂, -, hread₂⟩ :=
    exists_poll_eq (hkeeps.active.trans hactive) (hkeeps.stopped.trans hstopped)
      (hkeeps.source.trans hsource) hlate r₁ notices₁ (by rw [hcount]; exact hgood m (by omega))
      (by omega)
  rw [hpoll, hpoll₂, hnext, poll_of_ended le_rfl]
  refine ⟨?_, rfl⟩
  rw [hread₂, hread]
  rfl

omit hhorizon in
theorem poll_of_bad {k : Nat} (hk : k < begunWithin g.interval horizon)
    (hgood : ∀ j < k, ¬(source.usage (g.readAt.length + j)).IsBroken)
    (hbroken : (source.usage (g.readAt.length + k)).IsBroken) :
    (g.poll now (now + horizon) r notices).1.readAt =
        times now g.interval (k + 1) ++ g.readAt ∧
      (g.poll now (now + horizon) r notices).2.2.1 = now + k * g.interval := by
  have hlate : now + k * g.interval < now + horizon := by
    have := (lt_begunWithin_iff hinterval k).mp hk
    omega
  have hbefore : 0 ≤ k * g.interval := mul_nonneg (Int.natCast_nonneg k) hinterval.le
  have hless : k * g.interval ≤ begunWithin g.interval horizon * g.interval :=
    mul_le_mul_of_nonneg_right (Int.ofNat_le.mpr hk.le) hinterval.le
  obtain ⟨g₁, r₁, notices₁, hpoll, hkeeps, hread, hcount⟩ :=
    exists_poll_after hactive hstopped hsource r notices hinterval hgood hlate hshows
      (hshows.between hend (by omega) (by omega))
  obtain ⟨hlast, htime⟩ :=
    poll_of_broken (hkeeps.active.trans hactive) (hkeeps.stopped.trans hstopped)
      (hkeeps.source.trans hsource) hlate r₁ notices₁ (by rwa [hcount])
  rw [hpoll, hlast, hread]
  exact ⟨rfl, htime⟩

end

inductive Call (α : Type) where
  | begin
  | tick (r : Recorder)
  | evaluate (usage : α) (r : Recorder)
  | run (deadline : Int) (r : Recorder)

/-- A call at its time, with what the source of the guard, if it has one, answers meanwhile. -/
structure Moment (α : Type) where
  now : Int
  answers : Memory.Source
  call : Call α

/-- A source may answer otherwise at any time, but none comes up and none goes. -/
def answering (g : GuardWatch α) (answers : Memory.Source) : GuardWatch α :=
  { g with source := g.source.map fun _ => answers }

def perform (g : GuardWatch α) (m : Moment α) : GuardWatch α :=
  match m.call with
  | .begin => (g.answering m.answers).begin.1
  | .tick r => ((g.answering m.answers).tick m.now r).1
  | .evaluate usage r => ((g.answering m.answers).evaluate m.now usage r).1
  | .run deadline r => ((g.answering m.answers).run m.now deadline r).1

def after (g : GuardWatch α) (ms : List (Moment α)) : GuardWatch α := ms.foldl perform g

/-- No one has stopped the guard, and if it is active, it has a source and a limit above zero. -/
structure Equipped (g : GuardWatch α) : Prop where
  stopped : g.state.stopped = false
  exists_source : g.state.active = true →
    ∃ source limit, g.source = some source ∧ g.state.limit = some limit ∧ 1 ≤ limit

omit [Scalar α] in
theorem Equipped.answering (h : Equipped g) (answers : Memory.Source) :
    Equipped (g.answering answers) := by
  refine ⟨h.stopped, fun hactive => ?_⟩
  obtain ⟨source, limit, hsource, hlimit, hpos⟩ := h.exists_source hactive
  exact ⟨answers, limit, by rw [GuardWatch.answering, hsource]; rfl, hlimit, hpos⟩

omit [Scalar α] in
theorem Equipped.of_keeps (h : Equipped g) (hkeeps : Keeps g g') : Equipped g' := by
  refine ⟨hkeeps.stopped.trans h.stopped, fun hactive => ?_⟩
  rw [hkeeps.source, hkeeps.limit]
  exact h.exists_source (hkeeps.active.symm.trans hactive)

theorem state_begun (g : GuardWatch α) :
    g.begin.1 = { g with state := g.state.start (g.source.bind (·.limit)) } := by
  change { g with state := (Guard.begin g.config _ g.state).1 } = _
  rw [state_begin]

theorem usable_eq_some_iff {limit? : Option Nat} {limit : Nat} :
    GuardState.usable? limit? = some limit ↔ limit? = some limit ∧ 1 ≤ limit := by
  simp [GuardState.usable?, Option.filter_eq_some_iff, Nat.one_le_iff_ne_zero]

theorem Equipped.begin (h : Equipped g) : Equipped g.begin.1 := by
  rw [state_begun]
  refine ⟨h.stopped, fun hactive => ?_⟩
  obtain ⟨limit, hlimit⟩ := Option.isSome_iff_exists.mp hactive
  obtain ⟨hgiven, hpos⟩ := usable_eq_some_iff.mp hlimit
  obtain ⟨source, hsource, -⟩ := Option.bind_eq_some_iff.mp hgiven
  exact ⟨source, limit, hsource, hlimit, hpos⟩

theorem Equipped.ensureBegun (h : Equipped g) : Equipped g.ensureBegun.1 := by
  rw [GuardWatch.ensureBegun]
  split
  · exact h
  · exact h.begin

theorem Equipped.run (h : Equipped g) (now deadline : Int) (r : Recorder) :
    Equipped (g.run now deadline r).1 := by
  rw [GuardWatch.run]
  dsimp only
  split
  · exact h.ensureBegun.of_keeps (keeps_poll _ now deadline r _)
  · exact h.ensureBegun

theorem Equipped.perform (h : Equipped g) (m : Moment α) : Equipped (g.perform m) := by
  have hg := h.answering m.answers
  rw [GuardWatch.perform]
  cases m.call with
  | begin => exact hg.begin
  | tick r => exact hg.of_keeps (keeps_tick _ m.now r)
  | evaluate usage r => exact hg.of_keeps (keeps_evaluate _ m.now usage r)
  | run deadline r => exact hg.run m.now deadline r

theorem equipped_create (c : GuardConfig α) (source : Option Memory.Source) :
    Equipped (create c source) := ⟨rfl, nofun⟩

theorem Equipped.after (h : Equipped g) (ms : List (Moment α)) : Equipped (g.after ms) := by
  induction ms generalizing g with
  | nil => exact h
  | cons m ms ih => exact ih (h.perform m)

theorem exists_run_eq (now deadline : Int) (r : Recorder) {limit : Nat}
    (hsource : g.source = some source) (hlimit : source.limit = some limit) (hpos : 0 < limit) :
    ∃ (g' : GuardWatch α) (notices' : List Notice),
      g.run now deadline r = g'.poll now deadline r notices' ∧
      g'.state.active = true ∧ g'.state.stopped = g.state.stopped ∧ g'.source = g.source ∧
        g'.config = g.config ∧ g'.readAt = g.readAt := by
  by_cases hactive : g.state.active = true
  · have hbegun : g.ensureBegun = (g, []) := if_pos hactive
    refine ⟨g, [], ?_, hactive, rfl, rfl, rfl, rfl⟩
    rw [run, hbegun]
    exact if_pos hactive
  · have hbegun : g.ensureBegun = g.begin := if_neg hactive
    have hlimit' : GuardState.usable? (g.source.bind (·.limit)) = some limit := by
      rw [usable_eq_some_iff, hsource]
      exact ⟨hlimit, hpos⟩
    have hbegins : g.begin.1.state.active = true := by
      rw [state_begun]
      exact Option.isSome_iff_exists.mpr ⟨limit, hlimit'⟩
    refine ⟨g.begin.1, g.begin.2, ?_, hbegins, ?_⟩
    · rw [run, hbegun]
      exact if_pos hbegins
    · rw [state_begun]
      exact ⟨rfl, rfl, rfl, rfl⟩

/-- How a run of so many nanoseconds reads. A reading that goes wrong is the last one. -/
structure Polls (g : GuardWatch α) (source : Memory.Source) (now horizon : Int) (r : Recorder) :
    Prop where
  early : ∀ t ∈ times now g.interval (begunWithin g.interval horizon), t < now + horizon
  whole : (∀ k < begunWithin g.interval horizon,
      ¬(source.usage (g.readAt.length + k)).IsBroken) →
    (g.run now (now + horizon) r).1.readAt =
        times now g.interval (begunWithin g.interval horizon) ++ g.readAt ∧
      (g.run now (now + horizon) r).2.2.1 = now + horizon
  broken : ∀ k < begunWithin g.interval horizon,
    (∀ j < k, ¬(source.usage (g.readAt.length + j)).IsBroken) →
    (source.usage (g.readAt.length + k)).IsBroken →
    (g.run now (now + horizon) r).1.readAt = times now g.interval (k + 1) ++ g.readAt ∧
      (g.run now (now + horizon) r).2.2.1 = now + k * g.interval

theorem polls {limit : Nat} {horizon : Int} (hstopped : g.state.stopped = false)
    (hsource : g.source = some source) (hlimit : source.limit = some limit) (hpos : 0 < limit)
    (hinterval : 0 < g.interval) (hhorizon : 0 < horizon) (hshows : Clock.Shows now)
    (hend : Clock.Shows (now + begunWithin g.interval horizon * g.interval)) (r : Recorder) :
    Polls g source now horizon r := by
  obtain ⟨g₁, notices₁, hrun, hactive, hstopped₁, hsource₁, hconfig₁, hread₁⟩ :=
    exists_run_eq now (now + horizon) r hsource hlimit hpos
  have hsame : g.interval = g₁.interval := by rw [interval, interval, hconfig₁]
  refine ⟨fun t ht => ?_, ?_, fun k hk hgood hbroken => ?_⟩
  · obtain ⟨k, hk, rfl⟩ := mem_times.mp ht
    have := (lt_begunWithin_iff hinterval k).mp hk
    omega
  · rw [hsame] at hinterval hend ⊢
    rw [hrun, ← hread₁]
    exact poll_of_good hactive (hstopped₁.trans hstopped) (hsource₁.trans hsource) hinterval
      hhorizon hshows hend
  · rw [hsame] at hinterval hend hk ⊢
    rw [← hread₁] at hgood hbroken ⊢
    rw [hrun]
    exact poll_of_bad hactive (hstopped₁.trans hstopped) (hsource₁.trans hsource) hinterval
      hshows hend hk hgood hbroken

def weigh (g : GuardWatch α) (now : Int) (limit : Nat) (reading : Memory.Reading) (r : Recorder) :
    GuardWatch α × Recorder × Option GuardAction × List Notice :=
  match reading with
  | .bytes usage =>
    let (g, r, a, notices) := g.evaluate now (GuardState.percentOf usage limit) r
    (g, r, some a, notices)
  | _ => (g, r, none, [])

/-- An active guard makes a reading and weighs it against a limit that is not zero; any other makes
none. A run polls once in every interval. -/
structure Guards (g : GuardWatch α) : Prop where
  exists_limit : g.state.active = true → ∃ source limit, g.source = some source ∧
    g.state.limit = some limit ∧ 1 ≤ limit ∧ ∀ now r, g.tick now r =
      { g with readAt := now :: g.readAt }.weigh now limit (source.usage g.readAt.length) r
  tick_eq : g.state.active = false → ∀ now r, g.tick now r = (g, r, none, [])
  polls : ∀ source limit, g.source = some source → source.limit = some limit → 0 < limit →
    1 ≤ g.config.intervalMs → ∀ now horizon, 0 < horizon → Clock.Shows now →
    Clock.Shows (now + begunWithin g.interval horizon * g.interval) →
    ∀ r, Polls g source now horizon r

theorem take_eq_weigh {limit : Nat} (hactive : g.state.active = true)
    (hlimit : g.state.limit = some limit) (now : Int) (reading : Memory.Reading) (r : Recorder) :
    g.take now reading r = g.weigh now limit reading r := by
  cases reading with
  | bytes usage =>
    rw [take, Guard.tick, hactive, hlimit]
    rfl
  | unknown => rfl
  | broken message => rfl

theorem Equipped.guards (h : Equipped g) : Guards g where
  exists_limit hactive := by
    obtain ⟨source, limit, hsource, hlimit, hpos⟩ := h.exists_source hactive
    refine ⟨source, limit, hsource, hlimit, hpos, fun now r => ?_⟩
    rw [tick, read_eq hactive hsource]
    exact take_eq_weigh (g := { g with readAt := now :: g.readAt }) hactive hlimit now _ r
  tick_eq hidle now r := by rw [tick, read?, hidle]
  polls source limit hsource hlimit hpos hinterval now horizon hhorizon hshows hend r := by
    have hpositive : 0 < g.interval := by
      rw [interval, Clock.perMilli]
      omega
    exact GuardWatch.polls h.stopped hsource hlimit hpos hpositive hhorizon hshows hend r

/-- Whatever has been asked of a guard, and whatever its source answers from now on. -/
theorem guards_after (c : GuardConfig α) (source : Option Memory.Source) (ms : List (Moment α))
    (answers : Memory.Source) : Guards (((create c source).after ms).answering answers) :=
  (((equipped_create c source).after ms).answering answers).guards

theorem guards_after_lost_limit :
    let c : GuardConfig Double := { GuardConfig.usual with intervalMs := 10 }
    let source (limit : Option Nat) : Memory.Source := ⟨limit, fun _ => .bytes 500⟩
    let r : Recorder := .create Labelled.usualCap false 0
    let g := ((create c (some (source none))).after
      [⟨0, source (some 1000), .begin⟩, ⟨7, source none, .begin⟩]).answering (source (some 1000))
    g.tick 8 r = (g, r, none, []) ∧
      (g.run 9 45000009 r).1.readAt = [40000009, 30000009, 20000009, 10000009, 9] ∧
      (g.run 9 45000009 r).2.2.1 = 45000009 := by
  intro c source r g
  have hg : Guards g := guards_after c (some (source none)) _ _
  have hinterval : g.interval = 10000000 := rfl
  have hfive : begunWithin 10000000 45000000 = 5 := by
    norm_num [begunWithin, Nat.ceil_eq_iff]
  have hpolls : Polls g (source (some 1000)) 9 45000000 r :=
    hg.polls _ 1000 rfl rfl (by decide) (by decide) 9 _ (by decide) (by decide)
      (by rw [hinterval, hfive]; decide) r
  have hwhole := hpolls.whole fun k _ => nofun
  rw [hinterval, hfive] at hwhole
  exact ⟨hg.tick_eq rfl 8 r, hwhole.1, hwhole.2⟩

/-- Of six readings the third goes wrong, and then there are no more. -/
theorem exists_polling_cut_short :
    let source : Memory.Source :=
      ⟨some 1000, fun n => if n = 2 then .broken (utf8 "usage unavailable") else .bytes 500⟩
    let g : GuardWatch Double := create { GuardConfig.usual with intervalMs := 10 } (some source)
    let r : Recorder := .create Labelled.usualCap false 0
    begunWithin g.interval 60000000 = 6 ∧
      (g.run 0 60000000 r).1.readAt = [20000000, 10000000, 0] ∧
      (g.run 0 60000000 r).2.2.1 = 20000000 := by
  intro source g r
  have hsix : begunWithin g.interval 60000000 = 6 := by
    have hinterval : g.interval = 10000000 := rfl
    rw [hinterval]
    norm_num [begunWithin, Nat.ceil_eq_iff]
  have hpolls : Polls g source 0 60000000 r :=
    polls rfl rfl rfl (by decide) (by decide) (by decide) (by decide) (by rw [hsix]; decide) r
  have hgood : ∀ j < 2, ¬(source.usage (g.readAt.length + j)).IsBroken := by
    intro j hj
    obtain rfl | rfl : j = 0 ∨ j = 1 := by omega
    · nofun
    · nofun
  have hcut := hpolls.broken 2 (by rw [hsix]; decide) hgood ⟨_, rfl⟩
  exact ⟨hsix, hcut.1, hcut.2⟩

end GuardWatch

end LoadGenerator
