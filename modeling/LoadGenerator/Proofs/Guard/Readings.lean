import LoadGenerator.Guard.Watch
import LoadGenerator.Proofs.Guard.Latches
import LoadGenerator.Proofs.Metrics.Untracked

namespace LoadGenerator

open Metrics

variable {α : Type} [Scalar α]

namespace GuardState

variable {c : GuardConfig α} {s : GuardState α}

omit [Scalar α] in
theorem disabledAt_noteDisabled (c : GuardConfig α) (now : Int) (warned : Bool)
    (s : GuardState α) : (s.noteDisabled c now warned).disabledAt =
      if warned && c.autoDisable then s.disabledAt.or (some now) else s.disabledAt := by
  rw [noteDisabled]
  split <;> rfl

theorem disabledAt_evaluate (c : GuardConfig α) (now : Int) (usage : α) (s : GuardState α) :
    (s.evaluate c now usage).1.disabledAt =
      if (s.evaluate c now usage).2.warned && c.autoDisable then s.disabledAt.or (some now)
      else s.disabledAt := by
  rw [evaluate]
  generalize (decide (c.warning ≤ usage) && !s.warningLatched) = warned
  generalize (decide (c.critical ≤ usage) && !s.criticalLatched) = critical
  split
  · rw [disabledAt_noteDisabled, GuardAction.warned_ofCrossings]
  · next h =>
    obtain ⟨rfl, -⟩ : warned = false ∧ critical = false := by simpa using h
    split
    · exact disabledAt_noteDisabled c now false _
    · exact disabledAt_noteDisabled c now false _

end GuardState

namespace GuardWatch

def tickBefore (g : GuardWatch α) (now deadline : Int) (r : Recorder) :
    GuardWatch α × Recorder × Option GuardAction × List Notice :=
  if g.goesOn now deadline then g.tick now r else (g, r, none, [])

/-- What a reading at time `now` does, where it evaluates to action `a`, if it is evaluated. -/
structure Reads (g : GuardWatch α) (now : Int) (r : Recorder) (g' : GuardWatch α) (r' : Recorder)
    (a : Option GuardAction) : Prop where
  config : g'.config = g.config
  recorder : r' = a.elim r (Guard.shed g.config · r)
  disabledAt : g'.state.disabledAt = if a.any GuardAction.warned && g.config.autoDisable then
    g.state.disabledAt.or (some now) else g.state.disabledAt

variable {g g' : GuardWatch α} {now : Int} {r r' : Recorder} {a : Option GuardAction}

omit [Scalar α] in
theorem reads_nothing (g : GuardWatch α) (now : Int) (r : Recorder) : Reads g now r g r none :=
  ⟨rfl, rfl, rfl⟩

theorem reads_take (g : GuardWatch α) (now : Int) (reading : Memory.Reading) (r : Recorder) :
    Reads g now r (g.take now reading r).1 (g.take now reading r).2.1
      (g.take now reading r).2.2.1 := by
  cases reading with
  | bytes usage =>
    rw [take, Guard.tick]
    cases g.state.active with
    | false => exact reads_nothing g now r
    | true =>
      cases g.state.limit with
      | none => exact reads_nothing g now r
      | some limit => exact ⟨rfl, rfl, GuardState.disabledAt_evaluate g.config now _ g.state⟩
  | unknown => exact reads_nothing g now r
  | broken message => exact reads_nothing g now r

omit [Scalar α] in
theorem eq_of_read {reading : Memory.Reading} (h : g.read? now = some (reading, g')) :
    g' = { g with readAt := now :: g.readAt } := by
  unfold read? at h
  split at h
  · obtain ⟨-, rfl⟩ := Prod.mk.inj (Option.some.inj h)
    rfl
  · cases h

theorem reads_tick (g : GuardWatch α) (now : Int) (r : Recorder) :
    Reads g now r (g.tick now r).1 (g.tick now r).2.1 (g.tick now r).2.2.1 := by
  rw [tick]
  cases hread : g.read? now with
  | none => exact reads_nothing g now r
  | some p =>
    obtain ⟨reading, g'⟩ := p
    obtain rfl := eq_of_read hread
    have h := reads_take { g with readAt := now :: g.readAt } now reading r
    exact ⟨h.config, h.recorder, h.disabledAt⟩

theorem reads_tickBefore (g : GuardWatch α) (now deadline : Int) (r : Recorder) :
    Reads g now r (g.tickBefore now deadline r).1 (g.tickBefore now deadline r).2.1
      (g.tickBefore now deadline r).2.2.1 := by
  rw [tickBefore]
  split
  · exact reads_tick g now r
  · exact reads_nothing g now r

theorem state_begin (c : GuardConfig α) (limit : Option Nat) (s : GuardState α) :
    (Guard.begin c limit s).1 = s.start limit := by
  unfold Guard.begin
  dsimp only
  split <;> rfl

theorem Reads.of_begun (h : Reads g.ensureBegun.1 now r g' r' a) : Reads g now r g' r' a := by
  have hbegun : g.ensureBegun.1.config = g.config ∧
      g.ensureBegun.1.state.disabledAt = g.state.disabledAt := by
    unfold ensureBegun
    split
    · exact ⟨rfl, rfl⟩
    · refine ⟨rfl, ?_⟩
      change (Guard.begin g.config _ g.state).1.disabledAt = _
      rw [state_begin]
      rfl
  obtain ⟨hconfig, hdisabled⟩ := hbegun
  refine ⟨h.config.trans hconfig, ?_, ?_⟩
  · rw [← hconfig]
    exact h.recorder
  · rw [← hconfig, ← hdisabled]
    exact h.disabledAt

omit [Scalar α] in
theorem Reads.warned (h : Reads g now r g' r' a) (hauto : g.config.autoDisable = true)
    (hw : a.any GuardAction.warned = true) :
    r' = r.disableTracking.rotate ∧ g'.state.disabledAt = g.state.disabledAt.or (some now) := by
  obtain ⟨a, rfl, ha⟩ : ∃ b, a = some b ∧ b.warned = true := by
    cases a with
    | none => cases hw
    | some b => exact ⟨b, rfl, hw⟩
  constructor
  · rw [h.recorder, Option.elim, Guard.shed, hauto, ha]
    rfl
  · rw [h.disabledAt, hw, hauto]
    rfl

omit [Scalar α] in
theorem Reads.of_isShed (h : Reads g now r g' r' a) (hr : r.IsShed)
    (hd : g.state.disabledAt.isSome = true) :
    r' = r ∧ g'.state.disabledAt = g.state.disabledAt := by
  constructor
  · rw [h.recorder]
    cases a with
    | none => rfl
    | some a =>
      rw [Option.elim, Guard.shed]
      split
      · rfl
      · split
        · exact hr.disableTracking_rotate_eq
        · split
          · exact hr.rotate_eq
          · rfl
  · obtain ⟨time, htime⟩ := Option.isSome_iff_exists.mp hd
    rw [h.disabledAt, htime]
    split <;> rfl

def Unwarned (g : GuardWatch α) (r : Recorder) : Prop :=
  g.config.autoDisable = true → r.tracking = true → g.state.warningLatched = false

structure LeavesOn (r : Recorder) (g' : GuardWatch α) (r' : Recorder) : Prop where
  unwarned : g'.Unwarned r'
  recorder : r'.tracking = true → r' = r

section

variable [Scalar.Ordered α]

theorem leavesOn_evaluate (h : g.config.warning ≤ g.config.critical) (hg : g.Unwarned r)
    (usage : α) :
    LeavesOn r { g with state := (g.state.evaluate g.config now usage).1 }
      (Guard.shed g.config (g.state.evaluate g.config now usage).2 r) := by
  have he := GuardState.evaluated h g.state now usage
  generalize (g.state.evaluate g.config now usage).1 = s' at he ⊢
  generalize (g.state.evaluate g.config now usage).2 = a at he ⊢
  rw [Guard.shed]
  cases hauto : g.config.autoDisable with
  | false => exact ⟨fun hon => absurd hon (by simp [hauto]), fun _ => rfl⟩
  | true =>
    by_cases hw : a.warned = true
    · simp only [hw, Bool.not_true, Bool.false_eq_true, if_false, if_true]
      exact ⟨fun _ ht => absurd ht (by simp [Recorder.rotate, Recorder.disableTracking]),
        fun ht => absurd ht (by simp [Recorder.rotate, Recorder.disableTracking])⟩
    · have hcalm : r.tracking = true → a.turnedCritical = false ∧ s'.warningLatched = false := by
        intro ht
        have hl := hg hauto ht
        refine ⟨Bool.eq_false_iff.mpr fun hc => hw ?_, ?_⟩
        · exact he.warned.mpr ⟨Scalar.Ordered.le_trans h (he.turnedCritical.mp hc).1, hl⟩
        · rw [he.warningLatched, hl, Bool.eq_false_iff.mpr hw]
          rfl
      simp only [hw, Bool.not_true, Bool.false_eq_true, if_false]
      split
      · next hc =>
        have hoff : r.tracking = false := Bool.eq_false_iff.mpr fun ht => by simp [hcalm ht] at hc
        exact ⟨fun _ ht => absurd (hoff.symm.trans ht) (by simp),
          fun ht => absurd (hoff.symm.trans ht) (by simp)⟩
      · exact ⟨fun _ ht => (hcalm ht).2, fun _ => rfl⟩

theorem leavesOn_take (h : g.config.warning ≤ g.config.critical) (hg : g.Unwarned r)
    (reading : Memory.Reading) :
    LeavesOn r (g.take now reading r).1 (g.take now reading r).2.1 := by
  cases reading with
  | bytes usage =>
    rw [take, Guard.tick]
    cases g.state.active with
    | false => exact ⟨hg, fun _ => rfl⟩
    | true =>
      cases g.state.limit with
      | none => exact ⟨hg, fun _ => rfl⟩
      | some limit => exact leavesOn_evaluate h hg _
  | unknown => exact ⟨hg, fun _ => rfl⟩
  | broken message => exact ⟨hg, fun _ => rfl⟩

theorem leavesOn_tickBefore (h : g.config.warning ≤ g.config.critical) (hg : g.Unwarned r)
    (deadline : Int) :
    LeavesOn r (g.tickBefore now deadline r).1 (g.tickBefore now deadline r).2.1 := by
  rw [tickBefore, tick]
  split
  · cases hread : g.read? now with
    | none => exact ⟨hg, fun _ => rfl⟩
    | some p =>
      obtain ⟨reading, g'⟩ := p
      obtain rfl := eq_of_read hread
      let g₁ : GuardWatch α := { g with readAt := now :: g.readAt }
      have ht : LeavesOn r (g₁.take now reading r).1 (g₁.take now reading r).2.1 :=
        leavesOn_take (g := g₁) h hg reading
      exact ⟨ht.unwarned, ht.recorder⟩
  · exact ⟨hg, fun _ => rfl⟩

omit [Scalar.Ordered α] in
theorem Unwarned.ensureBegun (hg : g.Unwarned r) :
    g.ensureBegun.1.config = g.config ∧ g.ensureBegun.1.Unwarned r := by
  unfold GuardWatch.ensureBegun
  split
  · exact ⟨rfl, hg⟩
  · refine ⟨rfl, fun hauto ht => ?_⟩
    change (Guard.begin g.config _ g.state).1.warningLatched = _
    rw [state_begin]
    exact hg hauto ht

end

end GuardWatch

end LoadGenerator
