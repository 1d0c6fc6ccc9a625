import LoadGenerator.Metrics.Format
import LoadGenerator.Metrics.Recorder
import LoadGenerator.Scalar.Basic

namespace LoadGenerator

structure GuardConfig (α : Type) where
  warning : α
  critical : α
  intervalMs : Int
  autoDisable : Bool

namespace GuardConfig

variable {α : Type} [Scalar α]

def usual : GuardConfig α := ⟨Scalar.ofInt 80, Scalar.ofInt 90, 5000, true⟩

/-- Below this share, ten points under the warning, the latches open again. -/
def rearm (c : GuardConfig α) : α := c.warning - Scalar.ofInt 10

end GuardConfig

inductive GuardAction where
  | nothing
  | warning
  | critical
  | warningAndCritical
  | reset
  deriving DecidableEq, Repr

namespace GuardAction

def label : GuardAction → String
  | .nothing => "none"
  | .warning => "warning"
  | .critical => "critical"
  | .warningAndCritical => "warning+critical"
  | .reset => "reset"

def all : List GuardAction := [.nothing, .warning, .critical, .warningAndCritical, .reset]

def labelAt (n : Nat) : String := (all[n]?.map label).getD "unknown"

def warned : GuardAction → Bool
  | .warning => true
  | .warningAndCritical => true
  | _ => false

def turnedCritical : GuardAction → Bool
  | .critical => true
  | .warningAndCritical => true
  | _ => false

def ofCrossings (warned critical : Bool) : GuardAction :=
  match warned, critical with
  | true, true => .warningAndCritical
  | false, true => .critical
  | true, false => .warning
  | false, false => .nothing

end GuardAction

structure GuardState (α : Type) where
  warningLatched : Bool
  criticalLatched : Bool
  disabledAt : Option Int
  last : α
  warnings : Nat
  criticals : Nat
  active : Bool
  limit : Option Nat
  stopped : Bool

namespace GuardState

variable {α : Type} [Scalar α]

def initial : GuardState α := ⟨false, false, none, Scalar.zero, 0, 0, false, none, false⟩

def noteDisabled (c : GuardConfig α) (now : Int) (warned : Bool) (s : GuardState α) :
    GuardState α :=
  if warned && c.autoDisable then { s with disabledAt := s.disabledAt.or (some now) } else s

/-- Take in one reading of the usage in percent. A latch closes when its threshold is reached, and
both open when a reading without a crossing is below the point of re-arming. -/
def evaluate (c : GuardConfig α) (now : Int) (usage : α) (s : GuardState α) :
    GuardState α × GuardAction :=
  let critical := decide (c.critical ≤ usage) && !s.criticalLatched
  let warned := decide (c.warning ≤ usage) && !s.warningLatched
  let crossed : GuardState α :=
    { s with
      last := usage
      warningLatched := s.warningLatched || warned
      criticalLatched := s.criticalLatched || critical
      warnings := s.warnings + warned.toNat
      criticals := s.criticals + critical.toNat }
  let s := crossed.noteDisabled c now warned
  if warned || critical then (s, .ofCrossings warned critical)
  else if s.warningLatched && decide (usage < c.rearm) then
    ({ s with warningLatched := false, criticalLatched := false }, .reset)
  else (s, .nothing)

def percentOf (usage limit : Nat) : α := Scalar.ofInt usage / Scalar.ofInt limit * Scalar.ofInt 100

def usable? (limit : Option Nat) : Option Nat := limit.filter (· ≠ 0)

def start (limit : Option Nat) (s : GuardState α) : GuardState α :=
  { s with limit := usable? limit, active := (usable? limit).isSome }

end GuardState

namespace Guard

open Metrics

variable {α : Type} [Scalar α]

def percentText (x : α) : Bytes := Scalar.fixed 1 x ++ utf8 "%"

def shed (c : GuardConfig α) (a : GuardAction) (r : Recorder) : Recorder :=
  if !c.autoDisable then r
  else if a.warned then r.disableTracking.rotate
  else if a.turnedCritical then r.rotate
  else r

def notices (c : GuardConfig α) (usage : α) (a : GuardAction) (tracking : Bool) : List Notice :=
  let critical :=
    if a.turnedCritical then
      [Notice.warning (utf8 "[MemoryGuard] CRITICAL: usage at " ++ percentText usage ++
        utf8 " of limit")]
    else []
  let warned :=
    if a.warned then
      [Notice.warning (utf8 "[MemoryGuard] Warning: usage at " ++ percentText usage ++
        utf8 " of limit")]
    else []
  let shed :=
    if a.warned && c.autoDisable then
      [Notice.warning (utf8 "[MemoryGuard] Latency tracking disabled and histograms rotated " ++
        utf8 "for the rest of the run")]
    else []
  let reset :=
    if a = .reset then
      [Notice.info (utf8 "[MemoryGuard] Usage back to " ++ percentText usage ++
        utf8 "; thresholds re-armed, tracking stays " ++ utf8 (if tracking then "on" else "off"))]
    else []
  critical ++ warned ++ shed ++ reset

def evaluate (c : GuardConfig α) (now : Int) (usage : α) (s : GuardState α) (r : Recorder) :
    GuardState α × Recorder × GuardAction × List Notice :=
  let (s, a) := s.evaluate c now usage
  let r := shed c a r
  (s, r, a, notices c usage a r.tracking)

/-- Take up a detected limit. Without one the guard stays off. -/
def begin (c : GuardConfig α) (limit : Option Nat) (s : GuardState α) :
    GuardState α × List Notice :=
  let s := s.start limit
  match s.limit with
  | none =>
    (s, [.warning (utf8 "[MemoryGuard] Memory limit could not be determined; guard disabled")])
  | some n =>
    (s, [.info (utf8 "[MemoryGuard] Limit " ++ Format.bytes n ++ utf8 ", warning at " ++
      percentText c.warning ++ utf8 ", critical at " ++ percentText c.critical ++
      utf8 (if c.autoDisable then "" else " (auto-disable off)"))])

def tick (c : GuardConfig α) (now : Int) (usage : Nat) (s : GuardState α) (r : Recorder) :
    GuardState α × Recorder × Option GuardAction × List Notice :=
  match s.active, s.limit with
  | true, some limit =>
    let (s, r, a, notices) := evaluate c now (GuardState.percentOf usage limit) s r
    (s, r, some a, notices)
  | _, _ => (s, r, none, [])

end Guard

end LoadGenerator
