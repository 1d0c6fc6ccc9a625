import LoadGenerator.Proofs.Metrics.Sampling

namespace LoadGenerator.Metrics

section

variable {percent : Nat}

theorem hits_one_hundreds_add (hpercent : percent ≤ 100) (first m n : Nat) :
    hits percent 1 first (100 * m + n) = percent * m + hits percent 1 first n := by
  have hlucky : 1 * lucky percent 1 first = percent := gcd_mul_lucky (a := 1) (one_dvd _) first
  rw [one_mul] at hlucky
  have hall := hits_mul_period_add (a := 1) hpercent first m n
  rw [Nat.gcd_one_right, Nat.div_one, hlucky] at hall
  rw [hall, Nat.mul_comm]

theorem hits_one_zero_of_le {n : Nat} (hn : n ≤ 100) : hits percent 1 0 n = min n percent := by
  induction n with
  | zero => simp [hits]
  | succ n ih =>
    have hslot : (n * 1 + 0) % 100 = n := by omega
    have ih := ih (by omega)
    rw [hits] at ih ⊢
    rw [Nat.count_succ, ih, hslot]
    split <;> omega

end

/-- A worker has asked whether a measurement is to be kept, at so many of a hundred. -/
structure Decision where
  worker : Nat
  percent : Nat
  yes : Bool

namespace Decision

/-- Where all measurements are kept, a decision takes no turn. -/
def takesTurn (d : Decision) : Bool := decide (d.percent < 100)

def InTurn : Nat → List Decision → Prop
  | _, [] => True
  | n, d :: ds => d.yes = decide (n % 100 < d.percent) ∧ InTurn (n + d.takesTurn.toNat) ds

variable {n percent : Nat} {d : Decision} {ds ds' : List Decision}

theorem countP_cons_takesTurn (d : Decision) (ds : List Decision) :
    (d :: ds).countP takesTurn = d.takesTurn.toNat + ds.countP takesTurn := by
  cases h : d.takesTurn <;> simp [h, Nat.add_comm]

theorem countP_takesTurn_eq_length (hpercent : percent < 100)
    (hds : ∀ d ∈ ds, d.percent = percent) : ds.countP takesTurn = ds.length := by
  rw [List.countP_eq_length]
  intro d hd
  rw [takesTurn, hds d hd]
  exact decide_eq_true hpercent

theorem inTurn_append_iff :
    InTurn n (ds ++ ds') ↔ InTurn n ds ∧ InTurn (n + ds.countP takesTurn) ds' := by
  induction ds generalizing n with
  | nil => simp [InTurn]
  | cons d ds ih =>
    rw [List.cons_append, InTurn, InTurn, ih, countP_cons_takesTurn, Nat.add_assoc, and_assoc]

namespace InTurn

theorem yes_of_full (h : InTurn n ds) (hd : d ∈ ds) (hfull : 100 ≤ d.percent) : d.yes = true := by
  obtain ⟨earlier, later, rfl⟩ := List.append_of_mem hd
  rw [(inTurn_append_iff.mp h).2.1]
  exact decide_eq_true ((Nat.mod_lt _ (by decide)).trans_le hfull)

theorem countP_yes (h : InTurn n ds) (hpercent : percent < 100)
    (hds : ∀ d ∈ ds, d.percent = percent) : ds.countP yes = hits percent 1 n ds.length := by
  induction ds using List.reverseRecOn with
  | nil => rfl
  | append_singleton ds d ih =>
    obtain ⟨hfirst, hlast, -⟩ := inTurn_append_iff.mp h
    have hds' : ∀ d ∈ ds, d.percent = percent := fun d hd => hds d (List.mem_append_left _ hd)
    have hd : d.percent = percent := hds d (List.mem_append_right _ (List.mem_singleton_self d))
    rw [hd, countP_takesTurn_eq_length hpercent hds', Nat.add_comm] at hlast
    rw [List.countP_append, List.countP_singleton, ih hfirst hds', hlast, List.length_append, hits,
      hits, List.length_singleton, Nat.count_succ, Nat.mul_one]
    simp only [decide_eq_true_eq]

theorem countP_yes_hundreds (h : InTurn n ds) (hpercent : percent ≤ 100)
    (hds : ∀ d ∈ ds, d.percent = percent) {m : Nat} (hlength : ds.length = 100 * m) :
    ds.countP yes = percent * m := by
  rcases hpercent.lt_or_eq with hlt | rfl
  · rw [h.countP_yes hlt hds, hlength]
    exact hits_one_hundreds_add hpercent n m 0
  · -- at a hundred no turns are taken, so they are not counted with the others
    rw [← hlength, List.countP_eq_length]
    exact fun d hd => h.yes_of_full hd (hds d hd).ge

theorem countP_yes_from_zero (h : InTurn 0 ds) (hpercent : percent < 100)
    (hds : ∀ d ∈ ds, d.percent = percent) :
    ds.countP yes = ds.length / 100 * percent + min (ds.length % 100) percent := by
  have hrest : ds.length % 100 ≤ 100 := (Nat.mod_lt _ (by decide)).le
  calc ds.countP yes = hits percent 1 0 ds.length := h.countP_yes hpercent hds
    _ = hits percent 1 0 (100 * (ds.length / 100) + ds.length % 100) := by rw [Nat.div_add_mod]
    _ = ds.length / 100 * percent + min (ds.length % 100) percent := by
        rw [hits_one_hundreds_add hpercent.le, hits_one_zero_of_le hrest, Nat.mul_comm]

end InTurn

end Decision

namespace Recorder

/-- What workers, the memory guard and a run do to a recorder. -/
inductive Deed where
  | sample (worker percent : Nat)
  | measure (worker percent : Nat) (t : Tracker) (label : Bytes) (ms : Float)
  | skip
  | disableTracking
  | setTracking (on : Bool)
  | tracker (t : Tracker) (call : Labelled.Call)
  | rotate
  | countUnit (now : Int) (label : Bytes) (ms : Double)
  | resetThroughput (now : Int)
  | addRequest (o : RequestOutcome)
  | addScenario (o : ScenarioOutcome)

namespace Deed

def perform (r : Recorder) : Deed → Recorder
  | sample _ percent => (r.sample percent).1
  | measure _ percent t label ms => (r.measure percent t label ms).1
  | skip => r.skip
  | disableTracking => r.disableTracking
  | setTracking on => r.setTracking on
  | tracker t call => r.setTracker t (call.perform (r.tracker t))
  | rotate => r.rotate
  | countUnit now label ms => r.countUnit now label ms
  | resetThroughput now => r.resetThroughput now
  | addRequest o => r.addRequest o
  | addScenario o => r.addScenario o

def decision? (r : Recorder) : Deed → Option Decision
  | sample worker percent => some ⟨worker, percent, (r.sample percent).2⟩
  | measure worker percent _ _ _ =>
    if r.tracking then some ⟨worker, percent, (r.sample percent).2⟩ else none
  | _ => none

end Deed

def after (r : Recorder) (deeds : List Deed) : Recorder := deeds.foldl Deed.perform r

def decisions (r : Recorder) : List Deed → List Decision
  | [] => []
  | deed :: deeds => (deed.decision? r).toList ++ decisions (deed.perform r) deeds

theorem sample_spec (r : Recorder) (percent : Nat) :
    (r.sample percent).2 = decide (r.turn % 100 < percent) ∧
      (r.sample percent).1.turn = r.turn + (decide (percent < 100)).toNat := by
  rw [sample]
  split
  · next hfull =>
    have hslot : r.turn % 100 < percent := (Nat.mod_lt _ (by decide)).trans_le hfull
    rw [decide_eq_true hslot, decide_eq_false (Nat.not_lt.mpr hfull)]
    exact ⟨rfl, rfl⟩
  · next hfull =>
    rw [decide_eq_true (Nat.not_le.mp hfull)]
    exact ⟨rfl, rfl⟩

theorem turn_measure {r : Recorder} (h : r.tracking = true) (percent : Nat) (t : Tracker)
    (label : Bytes) (ms : Float) :
    (r.measure percent t label ms).1.turn = (r.sample percent).1.turn := by
  rw [measure, if_pos h]
  cases r.sample percent with
  | mk r' yes =>
    cases yes with
    | true => exact (counters_keep r' t label ms).2
    | false => rfl

theorem Deed.turn_perform (r : Recorder) (deed : Deed) :
    (deed.decision? r = none ∧ (deed.perform r).turn = r.turn) ∨
      ∃ d, deed.decision? r = some d ∧ d.yes = decide (r.turn % 100 < d.percent) ∧
        (deed.perform r).turn = r.turn + d.takesTurn.toNat := by
  cases deed with
  | sample worker percent =>
    obtain ⟨hyes, hturn⟩ := r.sample_spec percent
    exact .inr ⟨_, rfl, hyes, hturn⟩
  | measure worker percent t label ms =>
    cases htracking : r.tracking with
    | true =>
      obtain ⟨hyes, hturn⟩ := r.sample_spec percent
      have hsame := turn_measure htracking percent t label ms
      exact .inr ⟨_, if_pos htracking, hyes, hsame.trans hturn⟩
    | false =>
      have hskips := skips_measure htracking percent t label ms
      exact .inl ⟨if_neg (by simp [htracking]), hskips.turn⟩
  | tracker t call => cases t <;> exact .inl ⟨rfl, rfl⟩
  | _ => exact .inl ⟨rfl, rfl⟩

theorem inTurn_decisions (r : Recorder) (deeds : List Deed) :
    Decision.InTurn r.turn (r.decisions deeds) ∧
      (r.after deeds).turn = r.turn + (r.decisions deeds).countP Decision.takesTurn := by
  induction deeds generalizing r with
  | nil => exact ⟨trivial, rfl⟩
  | cons deed deeds ih =>
    obtain ⟨hinTurn, hturn⟩ := ih (deed.perform r)
    rw [after, List.foldl_cons, ← after, hturn, decisions]
    obtain ⟨hnone, hsame⟩ | ⟨d, hsome, hyes, hnext⟩ := deed.turn_perform r
    · rw [hnone]
      rw [hsame] at hinTurn ⊢
      exact ⟨hinTurn, rfl⟩
    · rw [hsome, Option.toList_some, List.singleton_append, Decision.countP_cons_takesTurn,
        ← Nat.add_assoc, ← hnext]
      exact ⟨⟨hyes, hnext ▸ hinTurn⟩, rfl⟩

/-- A recorder has made such decisions, and shares them out evenly. -/
structure DecidesEvenly (ds : List Decision) (r : Recorder) : Prop where
  stands : r.turn = ds.countP Decision.takesTurn
  /-- The counter is a word, as long as fewer decisions have been asked for than there are words. -/
  inWord : ds.length < Word.count → r.turn < Word.count
  yes_iff : ∀ earlier d later, ds = earlier ++ d :: later →
    (d.yes = true ↔ earlier.countP Decision.takesTurn % 100 < d.percent)
  full : ∀ d ∈ ds, 100 ≤ d.percent → d.yes = true
  window : ∀ earlier window later percent m, ds = earlier ++ window ++ later → percent ≤ 100 →
    (∀ d ∈ window, d.percent = percent) → window.length = 100 * m →
      window.countP Decision.yes = percent * m
  start : ∀ first later percent, ds = first ++ later → percent < 100 →
    (∀ d ∈ first, d.percent = percent) → first.countP Decision.yes =
      first.length / 100 * percent + min (first.length % 100) percent

/-- Whatever is done to a recorder, by whichever workers and in whichever order, it decides
evenly. -/
theorem decides_evenly (maxLabels : Nat) (listening : Bool) (begun : Int) (deeds : List Deed) :
    DecidesEvenly ((create maxLabels listening begun).decisions deeds)
      ((create maxLabels listening begun).after deeds) := by
  obtain ⟨hinTurn, hturn⟩ := inTurn_decisions (create maxLabels listening begun) deeds
  have hzero : (create maxLabels listening begun).turn = 0 := rfl
  rw [hzero] at hinTurn hturn
  rw [Nat.zero_add] at hturn
  constructor
  case stands => exact hturn
  case inWord =>
    intro hlength
    exact hturn ▸ List.countP_le_length.trans_lt hlength
  case yes_iff =>
    intro earlier d later hds
    rw [hds] at hinTurn
    rw [(Decision.inTurn_append_iff.mp hinTurn).2.1, Nat.zero_add, decide_eq_true_eq]
  case full => exact fun d => hinTurn.yes_of_full
  case window =>
    intro earlier window later percent m hds hpercent hwindow hlength
    rw [hds, List.append_assoc] at hinTurn
    have hmine := (Decision.inTurn_append_iff.mp (Decision.inTurn_append_iff.mp hinTurn).2).1
    exact hmine.countP_yes_hundreds hpercent hwindow hlength
  case start =>
    intro first later percent hds hpercent hfirst
    rw [hds] at hinTurn
    exact (Decision.inTurn_append_iff.mp hinTurn).1.countP_yes_from_zero hpercent hfirst

example : ((create 1 false 0).decisions [.sample 1 2, .sample 2 100, .rotate,
    .measure 1 2 .step [] 0.5, .sample 2 2]).map Decision.yes = [true, true, true, false] := by
  rfl

end Recorder

end LoadGenerator.Metrics
