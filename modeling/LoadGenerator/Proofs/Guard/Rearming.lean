import LoadGenerator.Proofs.Guard.Latches
import LoadGenerator.Proofs.Number.Comparing
import LoadGenerator.Proofs.Plan.Parts

namespace LoadGenerator

structure GuardConfig.Checked (c : GuardConfig Double) : Prop where
  isNumber : Scalar.isNumber c.warning = true
  pos : Scalar.zero < c.warning
  le : c.warning ≤ c.critical

namespace PlanReader

theorem isNumber_number? (v : Json) (field : Bytes) (key : String) :
    Ensures (number? v field key : Read (Option Double)) fun n? =>
      ∀ n ∈ n?, Scalar.isNumber n = true := by
  unfold number?
  split
  · exact ensures_ok nofun
  · next n _ =>
    split
    · next x hx =>
      obtain ⟨d, -, hd⟩ := Option.bind_eq_some_iff.mp hx
      refine ensures_ok ?_
      rintro _ ⟨⟩
      exact Double.isNumber_of_ofDecimal? hd
    · exact ensures_fail _ _

theorem checked_of_passes {c : GuardConfig Double} (h : Passes c)
    (hwarning : Scalar.isNumber c.warning = true) (hcritical : Scalar.isNumber c.critical = true) :
    c.Checked where
  isNumber := hwarning
  pos := not_not.mp (mt (Double.not_lt (by decide) hwarning).mp (not_or.mp h.pos).1)
  le := (Double.not_lt hcritical hwarning).mp h.order

theorem checked_guard (v : Json) : Ensures (guard v) GuardConfig.Checked := by
  have hguard := ensures_guard (v := v) (N := (Scalar.isNumber · = true)) (M := fun _ => True)
    (by decide) (by decide) trivial (isNumber_number? v _) fun _ _ _ _ => trivial
  exact hguard.mono fun g hg => checked_of_passes hg.1 hg.2.1 hg.2.2.1

end PlanReader

theorem GuardConfig.checked_usual : (usual : GuardConfig Double).Checked :=
  ⟨by decide, by decide, by decide⟩

namespace GuardState

/-- Above ten percent, no usage at all opens both latches. Up to ten percent, the point of re-arming
is not above zero, and then no usage opens a latch again. -/
structure Rearms (c : GuardConfig Double) (s : GuardState Double) : Prop where
  opens : Scalar.ofInt 10 < c.warning → ∀ now,
    (s.evaluate c now Scalar.zero).1.warningLatched = false ∧
      (s.evaluate c now Scalar.zero).1.criticalLatched = false
  unchanged : c.warning ≤ Scalar.ofInt 10 → ∀ now,
    (s.evaluate c now Scalar.zero).1.warningLatched = s.warningLatched ∧
      (s.evaluate c now Scalar.zero).1.criticalLatched = s.criticalLatched
  stays : c.warning ≤ Scalar.ofInt 10 → ∀ now usage, Scalar.zero ≤ usage →
    (s.warningLatched = true → (s.evaluate c now usage).1.warningLatched = true) ∧
      (s.criticalLatched = true → (s.evaluate c now usage).1.criticalLatched = true)

variable {c : GuardConfig Double} {s : GuardState Double}

theorem evaluate_zero (h : c.Checked) (s : GuardState Double) (now : Int) :
    (s.evaluate c now Scalar.zero).2.warned = false ∧
      (s.evaluate c now Scalar.zero).2.turnedCritical = false := by
  have he := evaluated h.le s now Scalar.zero
  have hwarning : ¬c.warning ≤ Scalar.zero := fun hle => Scalar.Ordered.not_lt_of_le hle h.pos
  have hcritical : ¬c.critical ≤ Scalar.zero := fun hle =>
    hwarning (Scalar.Ordered.le_trans h.le hle)
  rw [Bool.eq_false_iff, Bool.eq_false_iff, ne_eq, ne_eq, he.warned, he.turnedCritical]
  exact ⟨fun hw => hwarning hw.1, fun hc => hcritical hc.1⟩

theorem zero_lt_rearm (h : c.Checked) (hc : Scalar.ofInt 10 < c.warning) :
    Scalar.zero < c.rearm := by
  obtain ⟨-, hpos⟩ | ⟨hle, -⟩ := Double.sub_ten_cases h.isNumber
  · exact hpos
  · exact absurd hc (Scalar.Ordered.not_lt_of_le hle)

theorem evaluate_ne_reset (h : c.Checked) (hc : c.warning ≤ Scalar.ofInt 10)
    (s : GuardState Double) (now : Int) (usage : Double) (husage : Scalar.zero ≤ usage) :
    (s.evaluate c now usage).2 ≠ .reset := by
  intro hreset
  obtain ⟨hlt, -⟩ | ⟨-, hle⟩ := Double.sub_ten_cases h.isNumber
  · exact Scalar.Ordered.not_lt_of_le hc hlt
  · have hbelow := ((evaluated h.le s now usage).reset.mp hreset).2
    exact Scalar.Ordered.not_lt_of_le (Scalar.Ordered.le_trans hle husage) hbelow

theorem rearms (h : c.Checked) (hlatched : s.criticalLatched = true → s.warningLatched = true) :
    Rearms c s where
  opens hc now := by
    have he := evaluated h.le s now Scalar.zero
    obtain ⟨hwarned, hcritical⟩ := evaluate_zero h s now
    have hreset := he.reset
    rw [he.warningLatched, he.criticalLatched, hwarned, hcritical]
    simp only [zero_lt_rearm h hc, and_true] at hreset
    cases hw : s.warningLatched <;> cases hk : s.criticalLatched <;> simp_all
  unchanged hc now := by
    have he := evaluated h.le s now Scalar.zero
    obtain ⟨hwarned, hcritical⟩ := evaluate_zero h s now
    have hne := evaluate_ne_reset h hc s now Scalar.zero (by decide)
    rw [he.warningLatched, he.criticalLatched, hwarned, hcritical]
    simp [hne]
  stays hc now usage husage := by
    have he := evaluated h.le s now usage
    have hne := evaluate_ne_reset h hc s now usage husage
    rw [he.warningLatched, he.criticalLatched]
    simp +contextual [hne]

end GuardState

namespace PlanLoader

theorem checked_ofJson (fs : Files) (folder : Bytes) (doc : Json) :
    Ensures (ofJson fs folder doc) fun l : LoadedPlan Double => l.plan.guard.Checked := by
  have hguard : Ensures (section? doc "memoryGuard" .usual PlanReader.guard)
      GuardConfig.Checked :=
    ensures_section GuardConfig.checked_usual fun g _ => PlanReader.checked_guard g
  exact (ensures_ofJson (ensures_true _) (fun m => PlanReader.ensures_true m.validate) hguard
    (ensures_true _)).mono fun l hl => hl.guard

/-- Whatever the readings before, the latches open at no usage at all exactly where the warning
threshold of the plan is above ten percent. -/
theorem rearms_of_loaded {fs : Files} {folder : Bytes} {doc : Json} {l : LoadedPlan Double}
    {notices : List Notice} (h : run (ofJson fs folder doc) = (.ok l, notices))
    (limit : Option Nat) (readings : List (Int × Double)) :
    GuardState.Rearms l.plan.guard
      ((GuardState.initial.start limit).evaluateAll l.plan.guard readings).1 := by
  have hchecked : l.plan.guard.Checked := checked_ofJson fs folder doc l [] notices h
  exact GuardState.rearms hchecked
    (GuardState.latches hchecked.le limit readings).warningLatched

def guarded (warning : Int) : Json :=
  .ofMembers
    [(utf8 "config", .ofMembers [(utf8 "baseUrl", .string (utf8 "http://shop"))]),
      (utf8 "memoryGuard", .ofMembers [(utf8 "warningPercent", .int warning)]),
      (utf8 "request", .ofMembers [(utf8 "path", .string (utf8 "/"))])]

theorem rearms_of_loaded_seventy : ∃ (l : LoadedPlan Double) (notices : List Notice),
    run (ofJson .empty (utf8 ".") (guarded 70)) = (.ok l, notices) ∧
      Scalar.ofInt 10 < l.plan.guard.warning ∧
      let s := (GuardState.initial.start none).evaluateAll l.plan.guard [(0, Scalar.ofInt 95)]
      s.1.warningLatched = true ∧ s.1.criticalLatched = true ∧
        GuardState.Rearms l.plan.guard s.1 := by
  obtain ⟨l, notices, hl, hwarning, hlatched⟩ : ∃ (l : LoadedPlan Double) (notices : List Notice),
      run (ofJson .empty (utf8 ".") (guarded 70)) = (.ok l, notices) ∧
        Scalar.ofInt 10 < l.plan.guard.warning ∧
        let s := (GuardState.initial.start none).evaluateAll l.plan.guard [(0, Scalar.ofInt 95)]
        s.1.warningLatched = true ∧ s.1.criticalLatched = true :=
    exists_of_run (by decide +kernel)
  exact ⟨l, notices, hl, hwarning, hlatched.1, hlatched.2, rearms_of_loaded hl none _⟩

/-- Under a threshold of five percent the point of re-arming is below zero. -/
theorem exists_latched : ∃ (l : LoadedPlan Double) (notices : List Notice),
    run (ofJson .empty (utf8 ".") (guarded 5)) = (.ok l, notices) ∧
      let s := (GuardState.initial.start none).evaluateAll l.plan.guard
        [(0, Scalar.ofInt 95), (1, Scalar.zero)]
      s.1.warningLatched = true ∧ s.1.criticalLatched = true :=
  exists_of_run (by decide +kernel)

end PlanLoader

end LoadGenerator
