import LoadGenerator.Guard.Basic
import LoadGenerator.Proofs.Number.Ordered

namespace LoadGenerator

namespace GuardAction

theorem warned_ofCrossings (warned critical : Bool) :
    (ofCrossings warned critical).warned = warned := by
  cases warned <;> cases critical <;> rfl

theorem turnedCritical_ofCrossings (warned critical : Bool) :
    (ofCrossings warned critical).turnedCritical = critical := by
  cases warned <;> cases critical <;> rfl

theorem ofCrossings_ne_reset (warned critical : Bool) : ofCrossings warned critical ≠ .reset := by
  cases warned <;> cases critical <;> nofun

end GuardAction

variable {α : Type} [Scalar α]

structure Evaluated (c : GuardConfig α) (usage : α) (s s' : GuardState α) (a : GuardAction) :
    Prop where
  warned : a.warned = true ↔ c.warning ≤ usage ∧ s.warningLatched = false
  turnedCritical : a.turnedCritical = true ↔ c.critical ≤ usage ∧ s.criticalLatched = false
  reset : a = .reset ↔ s.warningLatched = true ∧ usage < c.rearm
  warningLatched : s'.warningLatched = ((s.warningLatched || a.warned) && decide (a ≠ .reset))
  criticalLatched : s'.criticalLatched =
    ((s.criticalLatched || a.turnedCritical) && decide (a ≠ .reset))
  warnings : s'.warnings = s.warnings + a.warned.toNat
  criticals : s'.criticals = s.criticals + a.turnedCritical.toNat
  within : c.rearm ≤ usage → usage < c.warning → a = .nothing ∧ s' = { s with last := usage }

namespace GuardState

open GuardAction

variable {c : GuardConfig α} {s : GuardState α}

section

omit [Scalar α]

theorem noteDisabled_eq (c : GuardConfig α) (now : Int) (warned : Bool) (s : GuardState α) :
    ∃ disabledAt, s.noteDisabled c now warned = { s with disabledAt } := by
  rw [noteDisabled]
  split
  · exact ⟨_, rfl⟩
  · exact ⟨_, rfl⟩

end

theorem evaluated [Scalar.Ordered α] (h : c.warning ≤ c.critical) (s : GuardState α) (now : Int)
    (usage : α) : Evaluated c usage s (s.evaluate c now usage).1 (s.evaluate c now usage).2 := by
  have hnot : c.critical ≤ usage → ¬usage < c.rearm := fun hc =>
    Scalar.Ordered.not_lt_of_le (Scalar.Ordered.sub_ten_le (Scalar.Ordered.le_trans h hc))
  unfold evaluate
  dsimp only
  generalize hw : (decide (c.warning ≤ usage) && !s.warningLatched) = warned
  generalize hc : (decide (c.critical ≤ usage) && !s.criticalLatched) = critical
  obtain ⟨disabledAt, hd⟩ := noteDisabled_eq c now warned
    { s with
      last := usage
      warningLatched := s.warningLatched || warned
      criticalLatched := s.criticalLatched || critical
      warnings := s.warnings + warned.toNat
      criticals := s.criticals + critical.toNat }
  rw [hd]
  have hw' : warned = true ↔ c.warning ≤ usage ∧ s.warningLatched = false := by simp [← hw]
  have hc' : critical = true ↔ c.critical ≤ usage ∧ s.criticalLatched = false := by simp [← hc]
  split
  · next hcross =>
    constructor
    case warned => rw [warned_ofCrossings, hw']
    case turnedCritical => rw [turnedCritical_ofCrossings, hc']
    case reset =>
      -- a crossing of the critical threshold is above the point of re-arming
      refine ⟨fun ha => absurd ha (ofCrossings_ne_reset _ _), fun ⟨hl, hu⟩ => ?_⟩
      have hwarned : warned = false := by simp [← hw, hl]
      rw [hwarned, Bool.false_or, hc'] at hcross
      exact absurd hu (hnot hcross.1)
    case warningLatched => simp [warned_ofCrossings, ofCrossings_ne_reset]
    case criticalLatched => simp [turnedCritical_ofCrossings, ofCrossings_ne_reset]
    case warnings => rw [warned_ofCrossings]
    case criticals => rw [turnedCritical_ofCrossings]
    case within =>
      intro _ hu
      have hcrossed : c.warning ≤ usage := by
        obtain hcross | hcross := Bool.or_eq_true_iff.mp hcross
        · exact (hw'.mp hcross).1
        · exact Scalar.Ordered.le_trans h (hc'.mp hcross).1
      exact absurd hu (Scalar.Ordered.not_lt_of_le hcrossed)
  · next hcross =>
    obtain ⟨rfl, rfl⟩ : warned = false ∧ critical = false := by simpa using hcross
    obtain rfl : disabledAt = s.disabledAt := by simpa [noteDisabled] using hd.symm
    split
    · next hr =>
      obtain ⟨hl, hu⟩ : s.warningLatched = true ∧ usage < c.rearm := by simpa using hr
      constructor
      case warned => simpa [GuardAction.warned] using hw'
      case turnedCritical => simpa [GuardAction.turnedCritical] using hc'
      case reset => simp [hl, hu]
      case warningLatched => simp
      case criticalLatched => simp
      case warnings => rfl
      case criticals => rfl
      case within => exact fun hrearm => absurd hu (Scalar.Ordered.not_lt_of_le hrearm)
    · next hr =>
      constructor
      case warned => exact hw'
      case turnedCritical => exact hc'
      case reset => simpa using hr
      case warningLatched => simp [GuardAction.warned]
      case criticalLatched => simp [GuardAction.turnedCritical]
      case warnings => rfl
      case criticals => rfl
      case within => simp

/-- Evaluate readings one after the other, each at its time; also gives each with its action. -/
def evaluateAll (c : GuardConfig α) (s : GuardState α) :
    List (Int × α) → GuardState α × List (α × GuardAction)
  | [] => (s, [])
  | (now, usage) :: readings =>
    let (s, a) := s.evaluate c now usage
    let (s, log) := s.evaluateAll c readings
    (s, (usage, a) :: log)

/-- One of the latches of the guard, with the actions that close it. -/
structure Latch (c : GuardConfig α) where
  isClosed : GuardState α → Bool
  closes : GuardAction → Bool
  closes_reset : closes .reset = false
  wasOpen : ∀ (s : GuardState α) (now : Int) (usage : α),
    closes (s.evaluate c now usage).2 = true → isClosed s = false
  isClosed_evaluate : ∀ (s : GuardState α) (now : Int) (usage : α),
    isClosed (s.evaluate c now usage).1 =
      ((isClosed s || closes (s.evaluate c now usage).2) &&
        decide ((s.evaluate c now usage).2 ≠ .reset))

namespace Latch

def ofWarning [Scalar.Ordered α] (h : c.warning ≤ c.critical) : Latch c where
  isClosed := warningLatched
  closes := warned
  closes_reset := rfl
  wasOpen s now usage ha := ((evaluated h s now usage).warned.mp ha).2
  isClosed_evaluate s now usage := (evaluated h s now usage).warningLatched

def ofCritical [Scalar.Ordered α] (h : c.warning ≤ c.critical) : Latch c where
  isClosed := criticalLatched
  closes := turnedCritical
  closes_reset := rfl
  wasOpen s now usage ha := ((evaluated h s now usage).turnedCritical.mp ha).2
  isClosed_evaluate s now usage := (evaluated h s now usage).criticalLatched

theorem isClosed_of_closes (l : Latch c) {now : Int} {usage : α}
    (ha : l.closes (s.evaluate c now usage).2 = true) :
    l.isClosed (s.evaluate c now usage).1 = true := by
  have hne : (s.evaluate c now usage).2 ≠ .reset := by
    intro hr
    rw [hr, l.closes_reset] at ha
    cases ha
  simp [l.isClosed_evaluate, ha, hne]

theorem isClosed_or_below [Scalar.Ordered α] (h : c.warning ≤ c.critical) (l : Latch c)
    (hs : l.isClosed s = true) (now : Int) (usage : α) :
    l.isClosed (s.evaluate c now usage).1 = true ∨ usage < c.rearm := by
  by_cases hr : (s.evaluate c now usage).2 = .reset
  · exact .inr ((evaluated h s now usage).reset.mp hr).2
  · exact .inl (by simp [l.isClosed_evaluate, hs, hr])

end Latch

/-- Between any two actions that close a latch there is a reading below the point of re-arming. -/
def Apart (c : GuardConfig α) (closes : GuardAction → Bool) (log : List (α × GuardAction)) : Prop :=
  ∀ before between after first second, log = before ++ first :: (between ++ second :: after) →
    closes first.2 = true → closes second.2 = true → ∃ reading ∈ between, reading.1 < c.rearm

theorem Latch.exists_below [Scalar.Ordered α] (h : c.warning ≤ c.critical) (l : Latch c)
    {readings : List (Int × α)} {before after : List (α × GuardAction)} {second : α × GuardAction}
    (hlog : (s.evaluateAll c readings).2 = before ++ second :: after) (hs : l.isClosed s = true)
    (hsecond : l.closes second.2 = true) : ∃ reading ∈ before, reading.1 < c.rearm := by
  induction readings generalizing s before with
  | nil => simp [evaluateAll] at hlog
  | cons reading readings ih =>
    obtain ⟨now, usage⟩ := reading
    cases before with
    | nil =>
      obtain ⟨rfl, -⟩ := List.cons.inj hlog
      rw [l.wasOpen s now usage hsecond] at hs
      cases hs
    | cons first before =>
      obtain ⟨rfl, hrest⟩ := List.cons.inj hlog
      obtain hclosed | hbelow := l.isClosed_or_below h hs now usage
      · obtain ⟨x, hx, hlt⟩ := ih hrest hclosed
        exact ⟨x, List.mem_cons_of_mem _ hx, hlt⟩
      · exact ⟨_, List.mem_cons_self, hbelow⟩

theorem Latch.apart [Scalar.Ordered α] (h : c.warning ≤ c.critical) (l : Latch c)
    (s : GuardState α) (readings : List (Int × α)) :
    Apart c l.closes (s.evaluateAll c readings).2 := by
  induction readings generalizing s with
  | nil =>
    intro before between after first second hlog
    simp [evaluateAll] at hlog
  | cons reading readings ih =>
    obtain ⟨now, usage⟩ := reading
    intro before between after first second hlog hfirst hsecond
    cases before with
    | nil =>
      obtain ⟨rfl, hrest⟩ := List.cons.inj hlog
      exact l.exists_below h hrest (l.isClosed_of_closes hfirst) hsecond
    | cons x before =>
      obtain ⟨-, hrest⟩ := List.cons.inj hlog
      exact ih _ before between after first second hrest hfirst hsecond

structure Tallied (s : GuardState α) (resets : Nat) : Prop where
  warningLatched : s.criticalLatched = true → s.warningLatched = true
  warnings : s.warnings = resets + s.warningLatched.toNat
  criticals : s.criticals + (s.warningLatched && !s.criticalLatched).toNat ≤ s.warnings

theorem Tallied.evaluate [Scalar.Ordered α] (h : c.warning ≤ c.critical) {resets : Nat}
    (hs : Tallied s resets) (now : Int) (usage : α) :
    Tallied (s.evaluate c now usage).1
      (resets + if (s.evaluate c now usage).2 = .reset then 1 else 0) := by
  have he := evaluated h s now usage
  obtain ⟨hlatched, hwarnings, hcriticals⟩ := hs
  generalize (s.evaluate c now usage).1 = s' at he ⊢
  generalize (s.evaluate c now usage).2 = a at he ⊢
  -- a critical reading is at the warning threshold too
  have hboth : a.turnedCritical = true → s.warningLatched = false → a.warned = true := by
    intro ha hl
    exact he.warned.mpr ⟨Scalar.Ordered.le_trans h (he.turnedCritical.mp ha).1, hl⟩
  have hw : a.warned = true → s.warningLatched = false := fun ha => (he.warned.mp ha).2
  have hc : a.turnedCritical = true → s.criticalLatched = false := fun ha =>
    (he.turnedCritical.mp ha).2
  have hr : a = .reset → s.warningLatched = true := fun ha => (he.reset.mp ha).1
  constructor
  case warningLatched =>
    rw [he.criticalLatched, he.warningLatched]
    grind
  case warnings =>
    rw [he.warnings, he.warningLatched, hwarnings]
    cases a <;> simp_all [GuardAction.warned]
  case criticals =>
    rw [he.criticals, he.warnings, he.criticalLatched, he.warningLatched]
    cases a <;> cases hl : s.warningLatched <;> cases hk : s.criticalLatched <;>
      (simp_all [GuardAction.warned, GuardAction.turnedCritical]; try omega)

theorem Tallied.evaluateAll [Scalar.Ordered α] (h : c.warning ≤ c.critical) {resets : Nat}
    (hs : Tallied s resets) (readings : List (Int × α)) :
    Tallied (s.evaluateAll c readings).1
      (resets + (s.evaluateAll c readings).2.countP (·.2 = .reset)) := by
  induction readings generalizing s resets with
  | nil => exact hs
  | cons reading readings ih =>
    obtain ⟨now, usage⟩ := reading
    have := ih (hs.evaluate h now usage)
    simpa [GuardState.evaluateAll, List.countP_cons, Nat.add_assoc, Nat.add_comm] using this

/-- What is known of the latches after the readings of `log`, and of what the next one does. -/
structure Latches (c : GuardConfig α) (s : GuardState α) (log : List (α × GuardAction)) : Prop where
  warningLatched : s.criticalLatched = true → s.warningLatched = true
  warnings : s.warnings = log.countP (·.2 = .reset) + s.warningLatched.toNat
  criticals : s.criticals ≤ s.warnings
  warningsApart : Apart c (·.warned) log
  criticalsApart : Apart c (·.turnedCritical) log
  next : ∀ now usage, Evaluated c usage s (s.evaluate c now usage).1 (s.evaluate c now usage).2

theorem latches [Scalar.Ordered α] (h : c.warning ≤ c.critical) (limit : Option Nat)
    (readings : List (Int × α)) :
    Latches c ((initial.start limit).evaluateAll c readings).1
      ((initial.start limit).evaluateAll c readings).2 := by
  have htallied : Tallied (initial.start limit : GuardState α) 0 := ⟨nofun, rfl, Nat.le_refl 0⟩
  obtain ⟨hlatched, hwarnings, hcriticals⟩ := htallied.evaluateAll h readings
  constructor
  case warningLatched => exact hlatched
  case warnings => simpa using hwarnings
  case criticals => exact Nat.le_trans (Nat.le_add_right _ _) hcriticals
  case warningsApart => exact (Latch.ofWarning h).apart h _ readings
  case criticalsApart => exact (Latch.ofCritical h).apart h _ readings
  case next => exact evaluated h _

theorem latches_twice :
    let c : GuardConfig Double := .usual
    let s : GuardState Double := initial.start (some 1024)
    let readings := [85, 95, 75, 69, 91].map fun percent => (0, (Scalar.ofInt percent : Double))
    c.warning ≤ c.critical ∧ Latches c (s.evaluateAll c readings).1 (s.evaluateAll c readings).2 ∧
      (s.evaluateAll c readings).2.map (·.2) =
        [.warning, .critical, .nothing, .reset, .warningAndCritical] := by
  intro c s readings
  have h : c.warning ≤ c.critical := by decide
  exact ⟨h, latches h (some 1024) readings, by decide⟩

end GuardState

end LoadGenerator
