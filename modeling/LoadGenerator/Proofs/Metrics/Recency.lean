import LoadGenerator.Metrics.Labelled
import LoadGenerator.Proofs.Data.SortedMap
import LoadGenerator.Proofs.Metrics.Histogram
import Mathlib.Data.Finset.Card

namespace LoadGenerator.Metrics.Labelled

inductive Latency where
  | ms (ms : Float)
  | us (v : Nat)

def Latency.value : Latency → Nat
  | ms x => clampUs (Histogram.usOfMs x)
  | us v => clampUs v

inductive Call where
  | record (label : Bytes) (latency : Latency)
  | rotate
  | reset
  | look

def Call.perform (t : Labelled) : Call → Labelled
  | record label (.ms x) => (t.recordMs label x).1
  | record label (.us v) => (t.recordUs label v).1
  | rotate => t.rotate
  | reset => t.reset
  | look => t

def after (t : Labelled) (calls : List Call) : Labelled :=
  calls.foldr (fun call t => call.perform t) t

/-- The labels recorded since the last reset, the newest first. -/
def recorded : List Call → List Bytes
  | [] => []
  | .record label _ :: calls => label :: recorded calls
  | .reset :: _ => []
  | .rotate :: calls => recorded calls
  | .look :: calls => recorded calls

/-- The labels recorded after the last record of a label. -/
def recordedAfter (label : Bytes) (calls : List Call) : List Bytes :=
  (recorded calls).takeWhile (· ≠ label)

/-- A label was recorded, and fewer than `cap` others after it. -/
def Held (cap : Nat) (calls : List Call) (label : Bytes) : Prop :=
  label ∈ recorded calls ∧ (recordedAfter label calls).toFinset.card < cap

instance (cap : Nat) (calls : List Call) (label : Bytes) : Decidable (Held cap calls label) :=
  inferInstanceAs (Decidable (_ ∧ _))

def heldCount (cap : Nat) (calls : List Call) : Nat := min cap (recorded calls).toFinset.card

/-- The values recorded for a label since the histograms were last emptied, and since the label was
last put in without being held. -/
def samples (cap : Nat) (label : Bytes) : List Call → List Nat
  | [] => []
  | .record other latency :: calls =>
    if other = label then
      (if Held cap calls label then samples cap label calls else []) ++ [latency.value]
    else samples cap label calls
  | .rotate :: _ => []
  | .reset :: _ => []
  | .look :: calls => samples cap label calls

/-- How many records put a label in that was not held, while as many as possible were. -/
def displacements (cap : Nat) : List Call → Nat
  | [] => 0
  | .record label _ :: calls =>
    displacements cap calls + if ¬Held cap calls label ∧ heldCount cap calls = cap then 1 else 0
  | .rotate :: calls => displacements cap calls
  | .reset :: calls => displacements cap calls
  | .look :: calls => displacements cap calls

def latest : List Bytes → List Bytes
  | [] => []
  | a :: l => a :: (latest l).erase a

section

variable {a b : Bytes} {l : List Bytes}

theorem nodup_latest (l : List Bytes) : (latest l).Nodup := by
  induction l with
  | nil => exact List.nodup_nil
  | cons a l ih => exact List.nodup_cons.mpr ⟨ih.not_mem_erase, ih.erase a⟩

theorem mem_latest : a ∈ latest l ↔ a ∈ l := by
  induction l with
  | nil => rfl
  | cons b l ih =>
    rw [latest, List.mem_cons, (nodup_latest l).mem_erase_iff, ih, List.mem_cons]
    by_cases hab : a = b <;> simp [hab]

theorem length_latest (l : List Bytes) : (latest l).length = l.toFinset.card := by
  rw [← List.toFinset_card_of_nodup (nodup_latest l)]
  congr 1
  ext a
  rw [List.mem_toFinset, List.mem_toFinset, mem_latest]

theorem mem_takeWhile_latest :
    b ∈ (latest l).takeWhile (· ≠ a) ↔ b ∈ l.takeWhile (· ≠ a) := by
  induction l with
  | nil => rfl
  | cons d l ih =>
    by_cases hd : d = a
    · simp [latest, hd]
    · have hfilter : ((latest l).erase d).takeWhile (· ≠ a) =
          ((latest l).takeWhile (· ≠ a)).filter (· != d) := by
        rw [(nodup_latest l).erase_eq_filter, List.takeWhile_filter]
        congr 2
        funext x
        by_cases hx : x = d <;> simp [hx, hd]
      rw [latest, List.takeWhile_cons_of_pos (by simpa using hd),
        List.takeWhile_cons_of_pos (by simpa using hd), hfilter, List.mem_cons, List.mem_cons,
        List.mem_filter, ih]
      by_cases hb : b = d <;> simp [hb]

theorem idxOf_eq_length_takeWhile (a : Bytes) (l : List Bytes) :
    l.idxOf a = (l.takeWhile (· ≠ a)).length := by
  induction l with
  | nil => rfl
  | cons b l ih =>
    by_cases hb : b = a
    · simp [hb]
    · rw [List.idxOf_cons_ne l hb, ih, List.takeWhile_cons_of_pos (by simpa using hb),
        List.length_cons]

theorem idxOf_latest (a : Bytes) (l : List Bytes) :
    (latest l).idxOf a = (l.takeWhile (· ≠ a)).toFinset.card := by
  have hnodup : ((latest l).takeWhile (· ≠ a)).Nodup :=
    (nodup_latest l).sublist (List.takeWhile_sublist _)
  rw [idxOf_eq_length_takeWhile, ← List.toFinset_card_of_nodup hnodup]
  congr 1
  ext b
  rw [List.mem_toFinset, List.mem_toFinset, mem_takeWhile_latest]

theorem pairwise_latest (l : List Bytes) :
    (latest l).Pairwise fun a b => l.idxOf a < l.idxOf b := by
  induction l with
  | nil => exact List.Pairwise.nil
  | cons a l ih =>
    have hne : ∀ b ∈ (latest l).erase a, a ≠ b := by
      rintro b hb rfl
      exact (nodup_latest l).not_mem_erase hb
    refine List.pairwise_cons.mpr ⟨fun b hb => ?_, ?_⟩
    · rw [List.idxOf_cons_self, List.idxOf_cons_ne l (hne b hb)]
      exact Nat.succ_pos _
    · refine (ih.sublist List.erase_sublist).imp_of_mem fun {b d} hb hd hlt => ?_
      rw [List.idxOf_cons_ne l (hne b hb), List.idxOf_cons_ne l (hne d hd)]
      exact Nat.succ_lt_succ hlt

theorem erase_take_of_mem {n : Nat} (h : a ∈ l.take (n + 1)) :
    (l.take (n + 1)).erase a = (l.erase a).take n := by
  induction l generalizing n with
  | nil => simp
  | cons b l ih =>
    by_cases hb : b = a
    · simp [hb]
    · have hmem : a ∈ l.take n := by
        rcases List.mem_cons.mp (List.take_succ_cons ▸ h) with rfl | h
        · exact absurd rfl hb
        · exact h
      obtain ⟨m, rfl⟩ : ∃ m, n = m + 1 := by
        cases n with
        | zero => simp at hmem
        | succ m => exact ⟨m, rfl⟩
      rw [List.take_succ_cons, List.erase_cons_tail (by simpa using hb),
        List.erase_cons_tail (by simpa using hb), List.take_succ_cons, ih hmem]

theorem take_erase_of_not_mem {n : Nat} (h : a ∉ l.take n) : (l.erase a).take n = l.take n := by
  induction l generalizing n with
  | nil => simp
  | cons b l ih =>
    cases n with
    | zero => simp
    | succ n =>
      rw [List.take_succ_cons, List.mem_cons, not_or] at h
      rw [List.erase_cons_tail (by simpa using Ne.symm h.1), List.take_succ_cons,
        List.take_succ_cons, ih h.2]

end

theorem held_iff {n : Nat} {calls : List Call} {label : Bytes} :
    Held n calls label ↔ label ∈ (latest (recorded calls)).take n := by
  rw [Held, recordedAfter, ← idxOf_latest]
  constructor
  · rintro ⟨hmem, hlt⟩
    exact (List.mem_take_iff_idxOf_lt (mem_latest.mpr hmem)).mpr hlt
  · intro hmem
    have hl := List.mem_of_mem_take hmem
    exact ⟨mem_latest.mp hl, (List.mem_take_iff_idxOf_lt hl).mp hmem⟩

/-- The histograms hold the labels that were recorded last, and the values that belong to them. -/
structure Follows (n : Nat) (calls : List Call) (t : Labelled) : Prop where
  cap : t.cap = n + 1
  recency : t.recency = (latest (recorded calls)).take (n + 1)
  sorted : t.histograms.Sorted
  histogram : ∀ label, t.histograms.get? label =
    if label ∈ t.recency then some (.ofSamples (samples (n + 1) label calls)) else none
  evictions : t.evictions = displacements (n + 1) calls

section

variable {n : Nat} {calls : List Call} {t : Labelled} {label : Bytes}

namespace Follows

theorem nodup (h : Follows n calls t) : t.recency.Nodup :=
  h.recency ▸ (nodup_latest _).sublist (List.take_sublist _ _)

theorem mem_iff (h : Follows n calls t) : label ∈ t.recency ↔ Held (n + 1) calls label := by
  rw [held_iff, h.recency]

theorem contains_iff (h : Follows n calls t) :
    t.histograms.contains label = true ↔ label ∈ t.recency := by
  rw [SortedMap.contains, h.histogram]
  split <;> simp_all

theorem labels_perm (h : Follows n calls t) : t.labels.Perm t.recency := by
  refine (List.perm_ext_iff_of_nodup (SortedMap.nodup_keys h.sorted) h.nodup).mpr fun label => ?_
  rw [SortedMap.mem_keys_iff, ← SortedMap.contains, h.contains_iff]

theorem count_eq_length (h : Follows n calls t) : t.count = t.recency.length := by
  rw [← h.labels_perm.length_eq, count, labels, List.length_map]

theorem count_eq (h : Follows n calls t) : t.count = heldCount (n + 1) calls := by
  rw [h.count_eq_length, h.recency, List.length_take, length_latest, heldCount]

theorem cap_le_count_iff (h : Follows n calls t) :
    t.cap ≤ t.count ↔ heldCount (n + 1) calls = n + 1 := by
  rw [h.cap, h.count_eq, heldCount]
  omega

theorem exists_victim (h : Follows n calls t) (hfull : t.cap ≤ t.count) :
    ∃ victim, t.recency.getLast? = some victim ∧ t.evict = { t with
      histograms := t.histograms.erase victim
      recency := t.recency.dropLast
      evictions := t.evictions + 1 } := by
  have hne : t.recency ≠ [] := by
    rintro hnil
    rw [h.cap, h.count_eq_length, hnil] at hfull
    exact absurd hfull (Nat.not_succ_le_zero n)
  have hlast := List.getLast?_eq_some_getLast hne
  exact ⟨_, hlast, by rw [evict, hlast]⟩

end Follows

theorem mem_dropLast_iff {l : List Bytes} {victim : Bytes} (hl : l.Nodup)
    (hlast : l.getLast? = some victim) : label ∈ l.dropLast ↔ label ∈ l ∧ label ≠ victim := by
  obtain ⟨init, rfl⟩ := List.getLast?_eq_some_iff.mp hlast
  have hnot : victim ∉ init := by
    intro hmem
    exact (List.nodup_append.mp hl).2.2 victim hmem victim (by simp) rfl
  rw [List.dropLast_concat, List.mem_append, List.mem_singleton]
  constructor
  · intro hmem
    refine ⟨.inl hmem, ?_⟩
    rintro rfl
    exact hnot hmem
  · rintro ⟨hmem | hmem, hne⟩
    · exact hmem
    · exact absurd hmem hne

/-- A label that is acquired comes to the front, and its histogram goes on, or begins anew if it was
not held. -/
structure Acquired (n : Nat) (calls : List Call) (label : Bytes) (t : Labelled) : Prop where
  cap : t.cap = n + 1
  recency : t.recency = (latest (label :: recorded calls)).take (n + 1)
  sorted : t.histograms.Sorted
  other : ∀ other, other ≠ label → t.histograms.get? other =
    if other ∈ t.recency then some (.ofSamples (samples (n + 1) other calls)) else none
  own : (t.histograms.get? label).getD .empty =
    .ofSamples (if Held (n + 1) calls label then samples (n + 1) label calls else [])
  evictions : t.evictions = displacements (n + 1) calls +
    if ¬Held (n + 1) calls label ∧ heldCount (n + 1) calls = n + 1 then 1 else 0

theorem Acquired.warn (h : Acquired n calls label t) : Acquired n calls label t.warn.1 := by
  rw [Labelled.warn]
  split
  · exact ⟨h.cap, h.recency, h.sorted, h.other, h.own, h.evictions⟩
  · exact h

theorem Follows.acquired_of_held (h : Follows n calls t) (hmem : label ∈ t.recency) :
    Acquired n calls label { t with recency := label :: t.recency.erase label } := by
  have hheld := h.mem_iff.mp hmem
  constructor
  case cap => exact h.cap
  case recency =>
    show label :: t.recency.erase label = _
    rw [h.recency] at hmem ⊢
    rw [latest, List.take_succ_cons, erase_take_of_mem hmem]
  case sorted => exact h.sorted
  case other =>
    intro other hne
    have hiff : other ∈ label :: t.recency.erase label ↔ other ∈ t.recency := by
      rw [List.mem_cons, List.mem_erase_of_ne hne]
      simp [hne]
    simp only [h.histogram other, hiff]
  case own =>
    show (t.histograms.get? label).getD .empty = _
    rw [h.histogram, if_pos hmem, if_pos hheld]
    rfl
  case evictions =>
    show t.evictions = _
    rw [h.evictions, if_neg (by simp [hheld])]
    rfl

theorem Follows.acquired_of_room (h : Follows n calls t) (hmem : label ∉ t.recency)
    (hroom : ¬t.cap ≤ t.count) : Acquired n calls label (t.hold label) := by
  have hheld : ¬Held (n + 1) calls label := h.mem_iff.not.mp hmem
  have hlen : (latest (recorded calls)).length ≤ n := by
    rw [h.cap, h.count_eq_length, h.recency, List.length_take] at hroom
    omega
  have hrec : t.recency = latest (recorded calls) := by
    rw [h.recency, List.take_of_length_le (Nat.le_succ_of_le hlen)]
  constructor
  case cap => exact h.cap
  case recency =>
    show label :: t.recency = _
    rw [hrec] at hmem ⊢
    rw [latest, List.erase_of_not_mem hmem, List.take_succ_cons, List.take_of_length_le hlen]
  case sorted => exact SortedMap.sorted_insert h.sorted _ _
  case other =>
    intro other hne
    show (t.histograms.insert label .empty).get? other = if other ∈ label :: t.recency then _ else _
    rw [SortedMap.get?_insert, if_neg hne, h.histogram]
    simp only [List.mem_cons, hne, false_or]
  case own =>
    show ((t.histograms.insert label .empty).get? label).getD .empty = _
    rw [SortedMap.get?_insert, if_pos rfl, if_neg hheld]
    rfl
  case evictions =>
    show t.evictions = _
    rw [h.evictions, if_neg (by simp [h.cap_le_count_iff.not.mp hroom])]
    rfl

theorem Follows.take_latest_of_full (h : Follows n calls t) (hmem : label ∉ t.recency)
    (hfull : t.cap ≤ t.count) :
    (latest (label :: recorded calls)).take (n + 1) = label :: t.recency.dropLast := by
  have hlen : t.recency.length = n + 1 := by
    have hle : t.recency.length ≤ n + 1 := h.recency ▸ List.length_take_le _ _
    rw [h.cap, h.count_eq_length] at hfull
    exact Nat.le_antisymm hle hfull
  have hdrop : t.recency.dropLast = (latest (recorded calls)).take n := by
    rw [List.dropLast_eq_take, hlen, h.recency, List.take_take]
    simp
  have hnot : label ∉ (latest (recorded calls)).take n := by
    rw [← hdrop]
    exact fun hd => hmem (List.mem_of_mem_dropLast hd)
  rw [latest, List.take_succ_cons, take_erase_of_not_mem hnot, hdrop]

theorem Follows.acquired_of_full (h : Follows n calls t) (hmem : label ∉ t.recency)
    (hfull : t.cap ≤ t.count) : Acquired n calls label (t.evict.hold label) := by
  have hheld : ¬Held (n + 1) calls label := h.mem_iff.not.mp hmem
  obtain ⟨victim, hlast, hevict⟩ := h.exists_victim hfull
  rw [hevict]
  constructor
  case cap => exact h.cap
  case recency => exact (h.take_latest_of_full hmem hfull).symm
  case sorted => exact SortedMap.sorted_insert (SortedMap.sorted_erase h.sorted _) _ _
  case other =>
    intro other hne
    show ((t.histograms.erase victim).insert label .empty).get? other =
      if other ∈ label :: t.recency.dropLast then _ else _
    rw [SortedMap.get?_insert, if_neg hne, SortedMap.get?_erase, h.histogram]
    simp only [List.mem_cons, hne, false_or, mem_dropLast_iff h.nodup hlast]
    by_cases hv : other = victim <;> simp [hv]
  case own =>
    show (((t.histograms.erase victim).insert label .empty).get? label).getD .empty = _
    rw [SortedMap.get?_insert, if_pos rfl, if_neg hheld]
    rfl
  case evictions =>
    show t.evictions + 1 = _
    rw [h.evictions, if_pos ⟨hheld, h.cap_le_count_iff.mp hfull⟩]

theorem Follows.acquire (h : Follows n calls t) (label : Bytes) :
    Acquired n calls label (t.acquire label).1 := by
  rw [Labelled.acquire]
  by_cases hmem : label ∈ t.recency
  · rw [if_pos (h.contains_iff.mpr hmem)]
    exact h.acquired_of_held hmem
  · rw [if_neg (h.contains_iff.not.mpr hmem)]
    apply Acquired.warn
    rw [makeRoom]
    split
    · next hfull => exact h.acquired_of_full hmem hfull
    · next hroom => exact h.acquired_of_room hmem hroom

theorem Follows.record (h : Follows n calls t) (label : Bytes) (latency : Latency) :
    Follows n (.record label latency :: calls) (t.record label (·.add latency.value)).1 := by
  have ha := h.acquire label
  have hfront : label ∈ (t.acquire label).1.recency := by
    rw [ha.recency, latest, List.take_succ_cons]
    exact List.mem_cons_self
  rw [Labelled.record]
  dsimp only
  constructor
  case cap => exact ha.cap
  case recency => exact ha.recency
  case sorted =>
    show ((t.acquire label).1.histograms.alter label .empty (·.add latency.value)).Sorted
    exact SortedMap.sorted_alter ha.sorted label .empty _
  case histogram =>
    intro other
    show ((t.acquire label).1.histograms.alter label .empty (·.add latency.value)).get? other =
      if other ∈ (t.acquire label).1.recency then _ else _
    rw [SortedMap.get?_alter, samples]
    by_cases hother : other = label
    · subst hother
      rw [if_pos rfl, if_pos hfront, if_pos rfl, ha.own, Histogram.ofSamples_append_singleton]
    · rw [if_neg hother, if_neg (Ne.symm hother), ha.other other hother]
  case evictions => exact ha.evictions

theorem Follows.rotate (h : Follows n calls t) : Follows n (.rotate :: calls) t.rotate where
  cap := h.cap
  recency := h.recency
  sorted := SortedMap.sorted_map h.sorted _
  histogram label := by
    rw [Labelled.rotate, SortedMap.get?_map, h.histogram]
    split <;> rfl
  evictions := h.evictions

theorem Follows.perform (h : Follows n calls t) (call : Call) :
    Follows n (call :: calls) (call.perform t) := by
  cases call with
  | record label latency =>
    cases latency with
    | ms x => exact h.record label (.ms x)
    | us v => exact h.record label (.us v)
  | rotate => exact h.rotate
  | reset => exact ⟨h.cap, rfl, List.Pairwise.nil, fun _ => rfl, h.evictions⟩
  | look => exact ⟨h.cap, h.recency, h.sorted, h.histogram, h.evictions⟩

theorem follows_after (name : Bytes) (calls : List Call) :
    Follows n calls ((ofCap name (n + 1)).after calls) := by
  induction calls with
  | nil => exact ⟨by simp [after, ofCap], rfl, List.Pairwise.nil, fun _ => rfl, rfl⟩
  | cons call calls ih => exact ih.perform call

end

/-- The histograms `t` are a cache of the `cap` labels that were recorded last, as the calls, the
newest first, say. -/
structure Caches (cap : Nat) (calls : List Call) (t : Labelled) : Prop where
  held : ∀ label, label ∈ t.labels ↔ Held cap calls label
  count : t.count = min cap (recorded calls).toFinset.card
  nodup : t.recency.Nodup
  labels : t.labels.Perm t.recency
  order : t.recency.Pairwise fun a b => (recorded calls).idxOf a < (recorded calls).idxOf b
  victim : ∀ label latency, ¬Held cap calls label → t.count = cap → ∃ victim,
    t.recency.getLast? = some victim ∧
    (∀ other ∈ t.recency, (recorded calls).idxOf other ≤ (recorded calls).idxOf victim) ∧
    ∀ other, other ∈ ((Call.record label latency).perform t).labels ↔
      other = label ∨ other ∈ t.labels ∧ other ≠ victim
  still : (Call.rotate.perform t).recency = t.recency ∧ (Call.look.perform t).recency = t.recency
  stats : ∀ label, t.stats? label =
    if Held cap calls label then (Histogram.ofSamples (samples cap label calls)).stats? else none
  evictions : t.evictions = displacements cap calls

section

variable {n : Nat} {calls : List Call} {t : Labelled}

namespace Follows

theorem order (h : Follows n calls t) :
    t.recency.Pairwise fun a b => (recorded calls).idxOf a < (recorded calls).idxOf b :=
  h.recency ▸ (pairwise_latest _).sublist (List.take_sublist _ _)

theorem idxOf_le_last (h : Follows n calls t) {victim : Bytes}
    (hlast : t.recency.getLast? = some victim) :
    ∀ other ∈ t.recency, (recorded calls).idxOf other ≤ (recorded calls).idxOf victim := by
  obtain ⟨init, hinit⟩ := List.getLast?_eq_some_iff.mp hlast
  have horder := h.order
  rw [hinit] at horder ⊢
  intro other hmem
  rcases List.mem_append.mp hmem with hmem | hmem
  · exact Nat.le_of_lt ((List.pairwise_append.mp horder).2.2 other hmem victim (by simp))
  · rw [List.mem_singleton.mp hmem]

theorem labels_record_of_full (h : Follows n calls t) {label victim : Bytes} (latency : Latency)
    (hnot : ¬Held (n + 1) calls label) (hfull : t.count = n + 1)
    (hlast : t.recency.getLast? = some victim) (other : Bytes) :
    other ∈ ((Call.record label latency).perform t).labels ↔
      other = label ∨ other ∈ t.labels ∧ other ≠ victim := by
  have hmem : label ∉ t.recency := h.mem_iff.not.mpr hnot
  have hcap : t.cap ≤ t.count := by rw [h.cap, hfull]
  have h' := h.perform (.record label latency)
  have hrec : ((Call.record label latency).perform t).recency = label :: t.recency.dropLast :=
    h'.recency.trans (h.take_latest_of_full hmem hcap)
  rw [h'.labels_perm.mem_iff, hrec, List.mem_cons, mem_dropLast_iff h.nodup hlast,
    h.labels_perm.mem_iff]

theorem stats?_eq (h : Follows n calls t) (label : Bytes) : t.stats? label =
    if Held (n + 1) calls label then
      (Histogram.ofSamples (samples (n + 1) label calls)).stats?
    else none := by
  rw [stats?, h.histogram]
  by_cases hmem : label ∈ t.recency
  · rw [if_pos hmem, if_pos (h.mem_iff.mp hmem)]
    rfl
  · rw [if_neg hmem, if_neg (h.mem_iff.not.mp hmem)]
    rfl

theorem caches (h : Follows n calls t) : Caches (n + 1) calls t where
  held label := h.labels_perm.mem_iff.trans h.mem_iff
  count := h.count_eq
  nodup := h.nodup
  labels := h.labels_perm
  order := h.order
  victim label latency hnot hfull := by
    obtain ⟨victim, hlast, -⟩ := h.exists_victim (by rw [h.cap, hfull])
    exact ⟨victim, hlast, h.idxOf_le_last hlast, h.labels_record_of_full latency hnot hfull hlast⟩
  still := ⟨rfl, rfl⟩
  stats := h.stats?_eq
  evictions := h.evictions

end Follows

end

/-- Histograms under labels are an exact cache of the labels that were recorded last. -/
theorem caches_after (name : Bytes) (cap : Nat) (calls : List Call) :
    Caches (max cap 1) calls ((ofCap name cap).after calls) := by
  obtain ⟨n, hn⟩ : ∃ n, max cap 1 = n + 1 := ⟨max cap 1 - 1, by omega⟩
  have hcap : ofCap name cap = ofCap name (n + 1) := by
    rw [ofCap, ofCap, hn]
    simp
  rw [hn, hcap]
  exact (follows_after name calls).caches

end LoadGenerator.Metrics.Labelled
