import LoadGenerator.Proofs.Metrics.Ledger
import LoadGenerator.Proofs.Metrics.Recency
import LoadGenerator.Proofs.Metrics.Slots
import LoadGenerator.Proofs.Metrics.Untracked

namespace LoadGenerator.Metrics

namespace Labelled

def sampleCount (t : Labelled) (label : Bytes) : Nat :=
  ((t.histograms.get? label).map (·.count)).getD 0

def Call.isRecord : Call → Bool
  | .record _ _ => true
  | .rotate => false
  | .reset => false
  | .look => false

variable {cap : Nat} {calls : List Call} {label : Bytes}

theorem held_of_room (hroom : (recorded calls).toFinset.card ≤ cap)
    (hmem : label ∈ recorded calls) :
    Held cap calls label := by
  refine ⟨hmem, (Finset.card_lt_card ?_).trans_le hroom⟩
  refine Finset.ssubset_iff_of_subset (fun a ha => ?_) |>.mpr
    ⟨label, List.mem_toFinset.mpr hmem, ?_⟩
  · exact List.mem_toFinset.mpr ((List.takeWhile_sublist _).subset (List.mem_toFinset.mp ha))
  · intro hafter
    simpa using List.mem_takeWhile_imp (List.mem_toFinset.mp hafter)

theorem length_samples (hcalls : ∀ call ∈ calls, call.isRecord = true)
    (hroom : (recorded calls).toFinset.card ≤ cap) :
    (samples cap label calls).length = (recorded calls).count label := by
  induction calls with
  | nil => rfl
  | cons call calls ih =>
    obtain ⟨hcall, hrest⟩ := List.forall_mem_cons.mp hcalls
    cases call with
    | record other latency =>
      have hroom' : (recorded calls).toFinset.card ≤ cap := by
        refine (Finset.card_le_card fun a ha => ?_).trans hroom
        rw [recorded, List.toFinset_cons]
        exact Finset.mem_insert_of_mem ha
      have ih := ih hrest hroom'
      rw [samples, recorded]
      by_cases hother : other = label
      · subst hother
        rw [if_pos rfl, List.length_append, List.count_cons_self]
        by_cases hmem : other ∈ recorded calls
        · rw [if_pos (held_of_room hroom' hmem), ih]
          rfl
        · rw [if_neg fun hheld => hmem hheld.1, List.count_eq_zero.mpr hmem]
          rfl
      · rw [if_neg hother, ih, List.count_cons_of_ne hother]
    | rotate => cases hcall
    | reset => cases hcall
    | look => cases hcall

theorem length_samples_le (hcalls : ∀ call ∈ calls, call.isRecord = true) :
    (samples cap label calls).length ≤ (recorded calls).count label := by
  induction calls with
  | nil => rfl
  | cons call calls ih =>
    obtain ⟨hcall, hrest⟩ := List.forall_mem_cons.mp hcalls
    have ih := ih hrest
    cases call with
    | record other latency =>
      rw [samples, recorded]
      by_cases hother : other = label
      · rw [if_pos hother, hother, List.length_append, List.count_cons_self]
        split
        · exact Nat.add_le_add_right ih 1
        · simp
      · rwa [if_neg hother, List.count_cons_of_ne hother]
    | rotate => cases hcall
    | reset => cases hcall
    | look => cases hcall

theorem sampleCount_after_eq (name : Bytes) (cap : Nat) (calls : List Call) (label : Bytes) :
    ((ofCap name cap).after calls).sampleCount label =
      if Held (max cap 1) calls label then (samples (max cap 1) label calls).length else 0 := by
  obtain ⟨n, hn⟩ : ∃ n, max cap 1 = n + 1 := ⟨max cap 1 - 1, by omega⟩
  have hcap : ofCap name cap = ofCap name (n + 1) := by
    rw [ofCap, ofCap, hn]
    simp
  have hf := follows_after (n := n) name calls
  rw [hn, hcap, sampleCount, hf.histogram]
  by_cases hheld : Held (n + 1) calls label
  · rw [if_pos (hf.mem_iff.mpr hheld), if_pos hheld, Option.map_some, Option.getD_some,
      Histogram.count_ofSamples]
  · rw [if_neg fun hrec => hheld (hf.mem_iff.mp hrec), if_neg hheld]
    rfl

theorem sampleCount_after_of_not_held (name : Bytes) (h : ¬Held (max cap 1) calls label) :
    ((ofCap name cap).after calls).sampleCount label = 0 := by
  rw [sampleCount_after_eq, if_neg h]

theorem sampleCount_after_le (name : Bytes) (hcalls : ∀ call ∈ calls, call.isRecord = true)
    (label : Bytes) :
    ((ofCap name cap).after calls).sampleCount label ≤ (recorded calls).count label := by
  rw [sampleCount_after_eq]
  split
  · exact length_samples_le hcalls
  · exact Nat.zero_le _

theorem sampleCount_after (name : Bytes) (hcalls : ∀ call ∈ calls, call.isRecord = true)
    (hroom : (recorded calls).toFinset.card ≤ max cap 1) (label : Bytes) :
    ((ofCap name cap).after calls).sampleCount label = (recorded calls).count label := by
  rw [sampleCount_after_eq]
  by_cases hmem : label ∈ recorded calls
  · rw [if_pos (held_of_room hroom hmem), length_samples hcalls hroom]
  · rw [if_neg fun hheld => hmem hheld.1, List.count_eq_zero.mpr hmem]

end Labelled

def Measurement.key (m : Measurement) : Tracker × Bytes := (m.tracker, m.label)

def kept (percent : Nat) (t : Tracker) : List Measurement → List Labelled.Call
  | [] => []
  | m :: ms =>
    if m.tracker = t ∧ ms.length % 100 < percent then
      .record m.label (.ms m.ms) :: kept percent t ms
    else kept percent t ms

def drawn (percent : Nat) (t : Tracker) : List (Tracker × Bytes) → List Bytes
  | [] => []
  | key :: keys =>
    if key.1 = t ∧ keys.length % 100 < percent then key.2 :: drawn percent t keys
    else drawn percent t keys

/-- A recorder has taken measurements, the newest first, all of them with tracking on. -/
structure Sampled (percent cap : Nat) (ms : List Measurement) (r : Recorder) : Prop where
  tracking : r.tracking = true
  turn : r.turn = ms.length
  trackers : ∀ t, ∃ name, r.tracker t = (Labelled.ofCap name cap).after (kept percent t ms)

variable {percent cap : Nat} {ms : List Measurement} {r r' : Recorder} {t : Tracker} {label : Bytes}

theorem counters_keep (r : Recorder) (t : Tracker) (label : Bytes) (ms : Float) :
    (r.keep t label ms).1.tracking = r.tracking ∧ (r.keep t label ms).1.turn = r.turn := by
  cases t <;> exact ⟨rfl, rfl⟩

namespace Sampled

theorem start {on : Bool} (h : on = true) (percent maxLabels : Nat) (listening : Bool)
    (begun now : Int) : Sampled percent maxLabels []
      (((Recorder.create maxLabels listening begun).setTracking on).resetThroughput now) where
  tracking := h
  turn := rfl
  trackers t := by cases t <;> exact ⟨_, rfl⟩

theorem of_skips (h : Sampled percent cap ms r) {n : Nat} (hs : Recorder.Skips r r' n) :
    Sampled percent cap ms r' where
  tracking := hs.tracking.trans h.tracking
  turn := hs.turn.trans h.turn
  trackers t := hs.trackers t ▸ h.trackers t

theorem measure (hpercent : percent < 100) (h : Sampled percent cap ms r) (m : Measurement) :
    Sampled percent cap (m :: ms) (r.measure percent m.tracker m.label m.ms).1 := by
  let r₁ : Recorder := { r with turn := r.turn + 1 }
  have htracker (t : Tracker) : r₁.tracker t = r.tracker t := by cases t <;> rfl
  have hturn : r₁.turn = (m :: ms).length := congrArg (· + 1) h.turn
  rw [Recorder.measure, if_pos h.tracking, Recorder.sample, if_neg (Nat.not_le.mpr hpercent)]
  by_cases hslot : r.turn % 100 < percent
  · rw [decide_eq_true hslot]
    obtain ⟨htracking, hturn'⟩ := counters_keep r₁ m.tracker m.label m.ms
    refine ⟨htracking.trans h.tracking, hturn'.trans hturn, fun t => ?_⟩
    obtain ⟨name, ht⟩ := h.trackers t
    refine ⟨name, ?_⟩
    rw [h.turn] at hslot
    show (r₁.setTracker m.tracker _).tracker t = _
    rw [tracker_setTracker, htracker, htracker, kept]
    by_cases hm : m.tracker = t
    · subst hm
      rw [if_pos rfl, if_pos ⟨rfl, hslot⟩, ht]
      rfl
    · rw [if_neg (Ne.symm hm), if_neg fun hk => hm hk.1, ht]
  · rw [decide_eq_false hslot]
    refine ⟨h.tracking, hturn, fun t => ?_⟩
    obtain ⟨name, ht⟩ := h.trackers t
    rw [h.turn] at hslot
    exact ⟨name, by rw [htracker, kept, if_neg fun hk => hslot hk.2, ht]⟩

end Sampled

theorem isRecord_kept (percent : Nat) (t : Tracker) (ms : List Measurement) :
    ∀ call ∈ kept percent t ms, call.isRecord = true := by
  induction ms with
  | nil => simp [kept]
  | cons m ms ih =>
    rw [kept]
    split
    · exact List.forall_mem_cons.mpr ⟨rfl, ih⟩
    · exact ih

theorem recorded_kept (percent : Nat) (t : Tracker) (ms : List Measurement) :
    Labelled.recorded (kept percent t ms) = drawn percent t (ms.map Measurement.key) := by
  induction ms with
  | nil => rfl
  | cons m ms ih =>
    rw [kept, List.map_cons, drawn, List.length_map, Measurement.key]
    split
    · rw [Labelled.recorded, ih]
    · exact ih

theorem mem_of_drawn {keys : List (Tracker × Bytes)} (h : label ∈ drawn percent t keys) :
    (t, label) ∈ keys := by
  induction keys with
  | nil => cases h
  | cons key keys ih =>
    rw [drawn] at h
    split at h
    · next hk =>
      rcases List.mem_cons.mp h with rfl | h
      · exact hk.1 ▸ List.mem_cons_self
      · exact List.mem_cons_of_mem _ (ih h)
    · exact List.mem_cons_of_mem _ (ih h)

theorem nodup_drawn {keys : List (Tracker × Bytes)} (h : keys.Nodup) :
    (drawn percent t keys).Nodup := by
  induction keys with
  | nil => exact .nil
  | cons key keys ih =>
    obtain ⟨hkey, hkeys⟩ := List.nodup_cons.mp h
    rw [drawn]
    split
    · next hslot =>
      refine (ih hkeys).cons fun hmem => hkey ?_
      rw [← Prod.eta key, hslot.1]
      exact mem_of_drawn hmem
    · exact ih hkeys

namespace Sampled

theorem sampleCount_le (h : Sampled percent cap ms r) (t : Tracker) (label : Bytes) :
    (r.tracker t).sampleCount label ≤ (drawn percent t (ms.map Measurement.key)).count label := by
  obtain ⟨name, ht⟩ := h.trackers t
  rw [ht, ← recorded_kept]
  exact Labelled.sampleCount_after_le name (isRecord_kept percent t ms) label

theorem sampleCount_eq_zero (h : Sampled percent cap ms r)
    (hheld : ¬Labelled.Held (max cap 1) (kept percent t ms) label) :
    (r.tracker t).sampleCount label = 0 := by
  obtain ⟨name, ht⟩ := h.trackers t
  rw [ht]
  exact Labelled.sampleCount_after_of_not_held name hheld

theorem sampleCount_eq (h : Sampled percent cap ms r) {keys : List (Tracker × Bytes)}
    (hkeys : ∀ m ∈ ms, m.key ∈ keys) (hroom : (keys.filter (·.1 = t)).length ≤ max cap 1)
    (label : Bytes) : (r.tracker t).sampleCount label =
      (drawn percent t (ms.map Measurement.key)).count label := by
  obtain ⟨name, ht⟩ := h.trackers t
  rw [ht, ← recorded_kept]
  refine Labelled.sampleCount_after name (isRecord_kept percent t ms) (le_trans ?_ hroom) label
  rw [← List.length_map (f := Prod.snd), recorded_kept]
  refine (Finset.card_le_card fun a ha => ?_).trans (List.toFinset_card_le _)
  obtain ⟨m, hm, hkey⟩ := List.mem_map.mp (mem_of_drawn (List.mem_toFinset.mp ha))
  have hmem : (t, a) ∈ keys := hkey ▸ hkeys m hm
  exact List.mem_toFinset.mpr (List.mem_map.mpr ⟨(t, a), by simpa using hmem, rfl⟩)

end Sampled

section

variable {keys : List (Tracker × Bytes)}

theorem drawn_append {before : List (Tracker × Bytes)} (h : before.length % 100 = 0)
    (keys : List (Tracker × Bytes)) :
    drawn percent t (keys ++ before) = drawn percent t keys ++ drawn percent t before := by
  induction keys with
  | nil => rfl
  | cons key keys ih =>
    have hlength : (keys ++ before).length % 100 = keys.length % 100 := by
      rw [List.length_append]
      omega
    rw [List.cons_append, drawn, drawn, hlength, ih]
    split <;> rfl

theorem count_drawn_of_not_mem (h : (t, label) ∉ keys) (before : List (Tracker × Bytes)) :
    (drawn percent t (keys ++ before)).count label = (drawn percent t before).count label := by
  induction keys with
  | nil => rfl
  | cons key keys ih =>
    obtain ⟨hk, hkeys⟩ := not_or.mp (List.mem_cons.not.mp h)
    rw [List.cons_append, drawn]
    split
    · next hslot =>
      have hne : key.2 ≠ label := fun heq => hk (Prod.ext hslot.1.symm heq.symm)
      rw [List.count_cons_of_ne hne, ih hkeys]
    · exact ih hkeys

theorem count_drawn_round (hnodup : keys.Nodup) {p : Nat} (hp : keys[p]? = some (t, label))
    (before : List (Tracker × Bytes)) :
    (drawn percent t (keys.reverse ++ before)).count label =
      (drawn percent t before).count label +
        if (before.length + p) % 100 < percent then 1 else 0 := by
  induction keys using List.reverseRecOn with
  | nil => cases hp
  | append_singleton keys k ih =>
    obtain ⟨hkeys, -, hk⟩ := List.nodup_append'.mp hnodup
    have hnot : k ∉ keys := fun hmem => hk hmem (List.mem_singleton_self k)
    rw [List.reverse_concat, List.cons_append, drawn, List.length_append, List.length_reverse]
    rcases Nat.lt_or_ge p keys.length with hlt | hge
    · rw [List.getElem?_append_left hlt] at hp
      have hne : k ≠ (t, label) := by
        rintro rfl
        exact hnot (List.mem_of_getElem? hp)
      rw [← ih hkeys hp]
      split
      · next hslot => exact List.count_cons_of_ne fun heq => hne (Prod.ext hslot.1 heq)
      · rfl
    · have hlast : p = keys.length ∧ k = (t, label) := by
        rw [List.getElem?_append_right hge, List.getElem?_singleton] at hp
        split at hp
        · exact ⟨by omega, Option.some.inj hp⟩
        · cases hp
      obtain ⟨rfl, rfl⟩ := hlast
      have hcount : (drawn percent t (keys.reverse ++ before)).count label =
          (drawn percent t before).count label :=
        count_drawn_of_not_mem (by simpa using hnot) before
      rw [Nat.add_comm keys.length]
      by_cases hslot : (before.length + keys.length) % 100 < percent
      · rw [if_pos ⟨rfl, hslot⟩, if_pos hslot, List.count_cons_self, hcount]
      · rw [if_neg fun h => hslot h.2, if_neg hslot, hcount]
        rfl

theorem count_drawn_rounds (hnodup : keys.Nodup) {p : Nat} (hp : keys[p]? = some (t, label))
    (n : Nat) : (drawn percent t (List.replicate n keys.reverse).flatten).count label =
      hits percent keys.length p n := by
  induction n with
  | zero => rfl
  | succ n ih =>
    have hlength : (List.replicate n keys.reverse).flatten.length = n * keys.length := by simp
    rw [List.replicate_succ, List.flatten_cons, count_drawn_round hnodup hp, ih, hlength, hits,
      hits, Nat.count_succ]

end

end LoadGenerator.Metrics
