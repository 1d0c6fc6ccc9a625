import LoadGenerator.Proofs.Metrics.Bucket
import Mathlib.Algebra.Order.Group.Abs
import Mathlib.Algebra.Order.Group.Int
import Mathlib.Data.List.Induction
import Mathlib.Data.List.Pairwise
import Mathlib.Data.List.Perm.Basic
import Mathlib.Data.List.Sort

namespace LoadGenerator.Metrics.Histogram

def ofSamples (S : List Nat) : Histogram := S.foldl add empty

inductive Call where
  | us (v : Nat)
  | ms (ms : Float)
  | ns (ns : Int)
  | reset
  | rotate

namespace Call

def perform (h : Histogram) : Call → Histogram
  | us v => h.recordUs v
  | ms x => h.recordMs x
  | ns x => h.recordNs x
  | reset => h.reset
  | rotate => h.rotate

def sample? : Call → Option Nat
  | us v => some (clampUs v)
  | ms x => some (clampUs (usOfMs x))
  | ns x => some (clampUs (usOfNs x))
  | reset => none
  | rotate => none

/-- The values that are there after a call, of those that were there before. -/
def keep (S : List Nat) (call : Call) : List Nat :=
  match call.sample? with
  | some v => S ++ [v]
  | none => []

end Call

def ofCalls (calls : List Call) : Histogram := calls.foldl Call.perform empty

/-- The values recorded since a histogram was last emptied. -/
def samples (calls : List Call) : List Nat := calls.foldl Call.keep []

section

variable {S : List Nat} {v : Nat}

@[simp] theorem ofSamples_append_singleton : ofSamples (S ++ [v]) = (ofSamples S).add v := by
  simp [ofSamples]

theorem add_right_comm (h : Histogram) (u v : Nat) : (h.add u).add v = (h.add v).add u := by
  have hcounts : (h.counts.modify (Bucket.index u) (· + 1)).modify (Bucket.index v) (· + 1) =
      (h.counts.modify (Bucket.index v) (· + 1)).modify (Bucket.index u) (· + 1) := by
    apply Array.ext
    · simp
    · intro i _ _
      simp only [Array.getElem_modify]
      split <;> split <;> rfl
  simp only [add, hcounts, Nat.add_right_comm h.sum u v, min_right_comm h.least u v,
    max_right_comm h.most u v]

theorem ofSamples_perm {S' : List Nat} (h : S.Perm S') : ofSamples S = ofSamples S' := by
  have : RightCommutative add := ⟨add_right_comm⟩
  exact h.foldl_eq empty

theorem count_ofSamples (S : List Nat) : (ofSamples S).count = S.length := by
  induction S using List.reverseRecOn with
  | nil => rfl
  | append_singleton S v ih => simp [add, ih]

theorem sum_ofSamples (S : List Nat) : (ofSamples S).sum = S.sum := by
  induction S using List.reverseRecOn with
  | nil => rfl
  | append_singleton S v ih => simp [add, ih]

theorem size_ofSamples (S : List Nat) : (ofSamples S).counts.size = Bucket.count := by
  induction S using List.reverseRecOn with
  | nil => simp [ofSamples, empty]
  | append_singleton S v ih => simp [add, ih]

theorem getElem_ofSamples (S : List Nat) {i : Nat} (hi : i < (ofSamples S).counts.size) :
    (ofSamples S).counts[i] = S.countP (Bucket.index · = i) := by
  induction S using List.reverseRecOn with
  | nil => simp [ofSamples, empty]
  | append_singleton S v ih =>
    have hi' : i < (ofSamples S).counts.size := by rwa [size_ofSamples] at hi ⊢
    simp only [ofSamples_append_singleton, add, Array.getElem_modify, ih hi', List.countP_append,
      List.countP_singleton, decide_eq_true_eq]
    split <;> rfl

theorem min?_eq_least (hne : S ≠ []) (hS : ∀ v ∈ S, v ≤ Word.largest) :
    S.min? = some (ofSamples S).least := by
  have hfold : (ofSamples S).least = S.foldl min Word.largest := by
    clear hne hS
    induction S using List.reverseRecOn with
    | nil => rfl
    | append_singleton S v ih => simp [add, ih]
  obtain ⟨v, S, rfl⟩ := List.exists_cons_of_ne_nil hne
  rw [hfold, List.min?_cons', List.foldl_cons, min_eq_right (hS v List.mem_cons_self)]

theorem max?_eq_most (hne : S ≠ []) : S.max? = some (ofSamples S).most := by
  have hfold : (ofSamples S).most = S.foldl max 0 := by
    clear hne
    induction S using List.reverseRecOn with
    | nil => rfl
    | append_singleton S v ih => simp [add, ih]
  obtain ⟨v, S, rfl⟩ := List.exists_cons_of_ne_nil hne
  rw [hfold, List.max?_cons', List.foldl_cons, Nat.zero_max]

theorem reset_ofSamples (S : List Nat) : (ofSamples S).reset = empty := by
  have hcounts : (ofSamples S).counts.map (fun _ => 0) = Array.replicate Bucket.count 0 := by
    rw [← size_ofSamples S]
    exact Array.map_const' ..
  rw [reset, hcounts, empty]

theorem perform_ofSamples (S : List Nat) (call : Call) :
    call.perform (ofSamples S) = ofSamples (call.keep S) := by
  cases call with
  | us v => exact ofSamples_append_singleton.symm
  | ms x => exact ofSamples_append_singleton.symm
  | ns x => exact ofSamples_append_singleton.symm
  | reset => exact reset_ofSamples S
  | rotate => rfl

theorem ofCalls_eq (calls : List Call) : ofCalls calls = ofSamples (samples calls) := by
  induction calls using List.reverseRecOn with
  | nil => rfl
  | append_singleton calls call ih =>
    rw [ofCalls, samples, List.foldl_append, List.foldl_append, ← ofCalls, ih, ← samples]
    exact perform_ofSamples _ call

theorem clampUs_mem (v : Nat) : 1 ≤ clampUs v ∧ clampUs v ≤ mostUs := by
  simp only [clampUs, leastUs, mostUs]
  omega

theorem le_mostUs_of_mem_samples {calls : List Call} (hv : v ∈ samples calls) : v ≤ mostUs := by
  induction calls using List.reverseRecOn with
  | nil => cases hv
  | append_singleton calls call ih =>
    rw [samples, List.foldl_append, ← samples] at hv
    cases call with
    | reset => cases hv
    | rotate => cases hv
    | _ =>
      rcases List.mem_append.mp hv with hv | hv
      · exact ih hv
      · rw [List.mem_singleton.mp hv]
        exact (clampUs_mem _).2

end

theorem bucketAt_eq_some {rank i seen j : Nat} {counts : List Nat} (hs : seen < rank)
    (h : bucketAt rank i seen counts = some j) :
    ∃ k, j = i + k ∧ k < counts.length ∧ seen + (counts.take k).sum < rank ∧
      rank ≤ seen + (counts.take (k + 1)).sum := by
  induction counts generalizing i seen with
  | nil => cases h
  | cons n counts ih =>
    rw [bucketAt] at h
    split at h
    · next hle =>
      cases h
      exact ⟨0, rfl, by simp, by simpa using hs, by simpa using hle⟩
    · next hlt =>
      obtain ⟨k, rfl, hk, hlow, hhigh⟩ := ih (Nat.not_le.mp hlt) h
      refine ⟨k + 1, by omega, by simpa using hk, ?_, ?_⟩
      · simpa [Nat.add_assoc] using hlow
      · simpa [Nat.add_assoc] using hhigh

theorem exists_bucketAt {rank seen : Nat} {counts : List Nat} (i : Nat) (hs : seen < rank)
    (h : rank ≤ seen + counts.sum) : ∃ j, bucketAt rank i seen counts = some j := by
  induction counts generalizing i seen with
  | nil =>
    rw [List.sum_nil] at h
    omega
  | cons n counts ih =>
    rw [bucketAt]
    split
    · exact ⟨i, rfl⟩
    · next hlt =>
      rw [List.sum_cons, ← Nat.add_assoc] at h
      exact ih (i + 1) (Nat.not_le.mp hlt) h

section

variable {S : List Nat}

theorem countP_index_lt_succ (S : List Nat) (k : Nat) : S.countP (Bucket.index · < k + 1) =
    S.countP (Bucket.index · < k) + S.countP (Bucket.index · = k) := by
  induction S with
  | nil => rfl
  | cons v S ih =>
    simp only [List.countP_cons, ih, decide_eq_true_eq]
    split_ifs <;> omega

theorem sum_take_counts {k : Nat} (hk : k ≤ Bucket.count) :
    ((ofSamples S).counts.toList.take k).sum = S.countP (Bucket.index · < k) := by
  induction k with
  | zero => simp
  | succ k ih =>
    have hlt : k < (ofSamples S).counts.toList.length := by
      rw [Array.length_toList, size_ofSamples]
      exact hk
    rw [List.take_succ_eq_append_getElem hlt, List.sum_append, ih (Nat.le_of_succ_le hk),
      List.sum_singleton, Array.getElem_toList, getElem_ofSamples, countP_index_lt_succ]

theorem sum_counts (hS : ∀ v ∈ S, v ≤ mostUs) : (ofSamples S).counts.toList.sum = S.length := by
  have hlen : (ofSamples S).counts.toList.length = Bucket.count := by
    rw [Array.length_toList, size_ofSamples]
  rw [← List.take_length (l := (ofSamples S).counts.toList), hlen,
    sum_take_counts (Nat.le_refl _), List.countP_eq_length]
  intro v hv
  exact decide_eq_true (Bucket.index_lt_count (hS v hv))

theorem getElem_iff_lt_countP {T : List Nat} (hT : T.Pairwise (· ≤ ·)) {p : Nat → Bool}
    (hp : ∀ a b, a ≤ b → p b = true → p a = true) {k : Nat} (hk : k < T.length) :
    p T[k] = true ↔ k < T.countP p := by
  induction T generalizing k with
  | nil => cases hk
  | cons a T ih =>
    obtain ⟨ha, hT⟩ := List.pairwise_cons.mp hT
    by_cases hpa : p a = true
    · rw [List.countP_cons_of_pos hpa]
      cases k with
      | zero => simp [hpa]
      | succ k => simpa using ih hT (Nat.lt_of_succ_lt_succ hk)
    · have hnone : ∀ b ∈ a :: T, ¬p b = true := by
        intro b hb hpb
        rcases List.mem_cons.mp hb with rfl | hb
        · exact hpa hpb
        · exact hpa (hp a b (ha b hb) hpb)
      rw [List.countP_eq_zero.mpr hnone]
      simpa using hnone _ (List.getElem_mem hk)

theorem bucketAt_ofSamples (hS : ∀ v ∈ S, v ≤ mostUs) {r : Nat} (h₁ : 1 ≤ r) {x : Nat}
    (hx : S.mergeSort[r - 1]? = some x) :
    bucketAt r 0 0 (ofSamples S).counts.toList = some (Bucket.index x) := by
  obtain ⟨hlt, rfl⟩ := List.getElem?_eq_some_iff.mp hx
  have hperm := List.mergeSort_perm S (fun a b => decide (a ≤ b))
  have hsorted := List.pairwise_mergeSort' (· ≤ ·) S
  have hr : r ≤ 0 + (ofSamples S).counts.toList.sum := by
    have hlen := hperm.length_eq
    rw [sum_counts hS]
    omega
  obtain ⟨j, hj⟩ := exists_bucketAt 0 h₁ hr
  obtain ⟨k, hjk, hk, hlow, hhigh⟩ := bucketAt_eq_some h₁ hj
  rw [Nat.zero_add] at hjk hlow hhigh
  subst hjk
  rw [Array.length_toList, size_ofSamples] at hk
  rw [sum_take_counts (Nat.le_of_lt hk), ← hperm.countP_eq] at hlow
  rw [sum_take_counts (k := j + 1) hk, ← hperm.countP_eq] at hhigh
  have hdown (n a b : Nat) (hab : a ≤ b) (hb : decide (Bucket.index b < n) = true) :
      decide (Bucket.index a < n) = true := by
    rw [decide_eq_true_eq] at *
    exact (Bucket.index_mono hab).trans_lt hb
  have hge := (getElem_iff_lt_countP hsorted (hdown j) hlt).not.mpr (by omega)
  have hle := (getElem_iff_lt_countP hsorted (hdown (j + 1)) hlt).mpr (by omega)
  rw [decide_eq_true_eq] at hge hle
  rw [hj]
  congr 1
  omega

theorem valueAt_eq (hS : ∀ v ∈ S, v ≤ mostUs) {r : Nat} (h₁ : 1 ≤ r) {x : Nat}
    (hx : S.mergeSort[r - 1]? = some x) : (ofSamples S).valueAt r =
      min (max (Bucket.middle (Bucket.index x)) (ofSamples S).least) (ofSamples S).most := by
  rw [valueAt, bucketAt_ofSamples hS h₁ hx]
  rfl

end

/-- What a histogram reports agrees with the values `S`. -/
structure Tells (h : Histogram) (S : List Nat) : Prop where
  stats?_eq_none : h.stats? = none ↔ S = []
  stats : ∀ s, h.stats? = some s → s.count = S.length ∧ S.min? = some s.least ∧
    S.max? = some s.most ∧ s.mean = Float.ofNat S.sum / Float.ofNat S.length
  valueAt : ∀ r, 1 ≤ r → r ≤ S.length → ∃ x i, S.mergeSort[r - 1]? = some x ∧
    bucketAt r 0 0 h.counts.toList = some i ∧
    h.least ≤ h.valueAt r ∧ h.valueAt r ≤ h.most ∧
    256 * |(h.valueAt r : Int) - x| ≤ x ∧ (x < 256 → h.valueAt r = x)
  valueAt_mono : ∀ r r', 1 ≤ r → r ≤ r' → r' ≤ S.length → h.valueAt r ≤ h.valueAt r'

section

variable {S : List Nat}

theorem stats?_ofSamples_eq_none : (ofSamples S).stats? = none ↔ S = [] := by
  rw [stats?, count_ofSamples]
  cases S <;> simp

theorem stats_ofSamples (hS : ∀ v ∈ S, v ≤ mostUs) {s : LatencyStats}
    (h : (ofSamples S).stats? = some s) : s.count = S.length ∧ S.min? = some s.least ∧
      S.max? = some s.most ∧ s.mean = Float.ofNat S.sum / Float.ofNat S.length := by
  have hne : S ≠ [] := by
    rintro rfl
    rw [stats?_ofSamples_eq_none.mpr rfl] at h
    cases h
  have hS' : ∀ v ∈ S, v ≤ Word.largest := fun v hv => (hS v hv).trans (by decide)
  have hcount : (ofSamples S).count ≠ 0 := by simpa [count_ofSamples] using hne
  rw [stats?, if_neg hcount] at h
  cases h
  refine ⟨count_ofSamples S, min?_eq_least hne hS', max?_eq_most hne, ?_⟩
  rw [sum_ofSamples, count_ofSamples]

theorem mem_between {x : Nat} (hS : ∀ v ∈ S, v ≤ mostUs) (hx : x ∈ S) :
    (ofSamples S).least ≤ x ∧ x ≤ (ofSamples S).most := by
  have hne : S ≠ [] := List.ne_nil_of_mem hx
  have hmin := min?_eq_least hne fun v hv => (hS v hv).trans (by decide)
  have hmax := max?_eq_most hne
  exact ⟨(List.min?_eq_some_iff.mp hmin).2 x hx, (List.max?_eq_some_iff.mp hmax).2 x hx⟩

theorem exists_ranked {r : Nat} (h₁ : 1 ≤ r) (hr : r ≤ S.length) :
    ∃ x, S.mergeSort[r - 1]? = some x ∧ x ∈ S := by
  have hperm := List.mergeSort_perm S (fun a b => decide (a ≤ b))
  have hlt : r - 1 < S.mergeSort.length := by
    rw [hperm.length_eq]
    omega
  exact ⟨_, List.getElem?_eq_getElem hlt, hperm.mem_iff.mp (List.getElem_mem hlt)⟩

theorem valueAt_ofSamples (hS : ∀ v ∈ S, v ≤ mostUs) {r : Nat} (h₁ : 1 ≤ r) {x : Nat}
    (hx : S.mergeSort[r - 1]? = some x) (hmem : x ∈ S) :
    (ofSamples S).least ≤ (ofSamples S).valueAt r ∧ (ofSamples S).valueAt r ≤ (ofSamples S).most ∧
      256 * |((ofSamples S).valueAt r : Int) - x| ≤ x ∧
      (x < 256 → (ofSamples S).valueAt r = x) := by
  obtain ⟨hleast, hmost⟩ := mem_between hS hmem
  obtain ⟨hover, hunder⟩ := Bucket.middle_near ((hS x hmem).trans_lt (by decide))
  rw [valueAt_eq hS h₁ hx]
  refine ⟨by omega, by omega, ?_, fun hlt => ?_⟩
  · -- what keeps the middle between the least and the greatest value only brings it nearer
    rcases abs_cases ((min (max (Bucket.middle (Bucket.index x)) (ofSamples S).least)
      (ofSamples S).most : Nat) - (x : Int)) with ⟨h, -⟩ | ⟨h, -⟩ <;> omega
  · rw [Bucket.middle_of_lt hlt]
    omega

theorem valueAt_mono_ofSamples (hS : ∀ v ∈ S, v ≤ mostUs) {r r' : Nat} (h₁ : 1 ≤ r) (hr : r ≤ r')
    (hr' : r' ≤ S.length) : (ofSamples S).valueAt r ≤ (ofSamples S).valueAt r' := by
  obtain ⟨x, hx, hmem⟩ := exists_ranked h₁ (hr.trans hr')
  obtain ⟨x', hx', hmem'⟩ := exists_ranked (h₁.trans hr) hr'
  have hle : x ≤ x' := by
    obtain ⟨hlt, rfl⟩ := List.getElem?_eq_some_iff.mp hx
    obtain ⟨hlt', rfl⟩ := List.getElem?_eq_some_iff.mp hx'
    have hpos : r - 1 ≤ r' - 1 := by omega
    exact (List.pairwise_mergeSort' (· ≤ ·) S).rel_get_of_le (a := ⟨r - 1, hlt⟩)
      (b := ⟨r' - 1, hlt'⟩) hpos
  have hmid := Bucket.middle_mono hle ((hS x' hmem').trans_lt (by decide))
  rw [valueAt_eq hS h₁ hx, valueAt_eq hS (h₁.trans hr) hx']
  omega

end

/-- A histogram tells of the values that have been recorded since it was last emptied, and of
nothing else: not even of their order. -/
theorem tells_samples (calls : List Call) : (ofCalls calls).Tells (samples calls) ∧
    ∀ calls' : List Call, (samples calls').Perm (samples calls) →
      ofCalls calls' = ofCalls calls := by
  have hS : ∀ v ∈ samples calls, v ≤ mostUs := fun v => le_mostUs_of_mem_samples
  constructor
  · rw [ofCalls_eq]
    constructor
    case stats?_eq_none => exact stats?_ofSamples_eq_none
    case stats => exact fun s => stats_ofSamples hS
    case valueAt =>
      intro r h₁ hr
      obtain ⟨x, hx, hmem⟩ := exists_ranked h₁ hr
      exact ⟨x, _, hx, bucketAt_ofSamples hS h₁ hx, valueAt_ofSamples hS h₁ hx hmem⟩
    case valueAt_mono => exact fun r r' => valueAt_mono_ofSamples hS
  · intro calls' hperm
    rw [ofCalls_eq, ofCalls_eq]
    exact ofSamples_perm hperm

end LoadGenerator.Metrics.Histogram
