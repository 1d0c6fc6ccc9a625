import LoadGenerator.Proofs.Load.Rise
import LoadGenerator.Scenario.Selector
import Mathlib.Algebra.BigOperators.Group.List.Basic
import Mathlib.Tactic.NormNum

namespace LoadGenerator.Selector

theorem isWeight_rat (w : Rat) : isWeight w = true ↔ 0 < w := by
  have h : isWeight w = (decide (0 < w) && true) := rfl
  rw [h, Bool.and_true, decide_eq_true_iff]

theorem length_sums (sum : Rat) (ws : List Rat) : (sums sum ws).length = ws.length := by
  induction ws generalizing sum with
  | nil => rfl
  | cons w ws ih => exact congrArg (· + 1) (ih _)

theorem getElem_sums (sum : Rat) (ws : List Rat) (i : Nat) (h : i < (sums sum ws).length) :
    (sums sum ws)[i] = sum + (ws.take (i + 1)).sum := by
  induction ws generalizing sum i with
  | nil => cases h
  | cons w ws ih =>
    cases i with
    | zero => simp [sums]
    | succ i =>
      rw [List.take_succ_cons, List.sum_cons, ← add_assoc]
      exact ih (sum + w) i (Nat.lt_of_succ_lt_succ h)

def weightOf (list : List (Scenario Rat)) (n : Nat) : Rat := ((list.map (·.weight)).take n).sum

variable {list : List (Scenario Rat)} {s : Selector Rat} {u p : Rat} {i j n : Nat}

theorem weightOf_zero (list : List (Scenario Rat)) : weightOf list 0 = 0 := by simp [weightOf]

theorem weightOf_succ (h : i < list.length) :
    weightOf list (i + 1) = weightOf list i + list[i].weight := by
  have hi : i < (list.map (·.weight)).length := by simpa using h
  rw [weightOf, List.sum_take_succ _ i hi, List.getElem_map]
  rfl

theorem weightOf_lt (h : ∀ x ∈ list, 0 < x.weight) (hij : i < j) (hj : j ≤ list.length) :
    weightOf list i < weightOf list j := by
  induction j with
  | zero => exact absurd hij (Nat.not_lt_zero i)
  | succ j ih =>
    have hstep : weightOf list j < weightOf list (j + 1) := by
      rw [weightOf_succ hj]
      exact lt_add_of_pos_right _ (h _ (List.getElem_mem hj))
    rcases Nat.lt_succ_iff_lt_or_eq.mp hij with hlt | rfl
    · exact (ih hlt (Nat.le_of_succ_le hj)).trans hstep
    · exact hstep

theorem weightOf_le (h : ∀ x ∈ list, 0 < x.weight) (hij : i ≤ j) (hj : j ≤ list.length) :
    weightOf list i ≤ weightOf list j := by
  rcases hij.lt_or_eq with hlt | rfl
  · exact (weightOf_lt h hlt hj).le
  · exact le_rfl

theorem entries_map_some (h : ∀ x ∈ list, 0 < x.weight) : entries (list.map some) = .ok list := by
  induction list with
  | nil => rfl
  | cons x list ih =>
    obtain ⟨hx, hlist⟩ := List.forall_mem_cons.mp h
    rw [List.map_cons, entries, if_pos ((isWeight_rat _).mpr hx), ih hlist]
    rfl

structure Weighs (s : Selector Rat) (list : List (Scenario Rat)) (n : Nat) : Prop where
  scenarios : s.scenarios = list
  cumulative : s.cumulative = sums 0 (list.map (·.weight))
  total : s.total = weightOf list (n + 1)
  length : list.length = n + 1
  pos : ∀ x ∈ list, 0 < x.weight

theorem exists_weighs (hne : list ≠ []) (h : ∀ x ∈ list, 0 < x.weight) :
    ∃ s n, ofList (list.map some) = .ok s ∧ s.Weighs list n := by
  obtain ⟨n, hn⟩ := Nat.exists_eq_succ_of_ne_zero (mt List.length_eq_zero_iff.mp hne)
  let cumulative := sums 0 (list.map (·.weight))
  have hlength : cumulative.length = n + 1 := by rw [length_sums, List.length_map, hn]
  have hlast : n < cumulative.length := by omega
  refine ⟨⟨list, cumulative, cumulative.getLastD 0, hne⟩, n, ?_, rfl, rfl, ?_, hn, h⟩
  · rw [ofList, entries_map_some h]
    exact dif_neg hne
  · have hget : cumulative.getLastD 0 = cumulative[n] := by
      rw [List.getLastD_eq_getLast?, List.getLast?_eq_getElem?, hlength, Nat.add_sub_cancel,
        List.getElem?_eq_getElem hlast, Option.getD_some]
    rw [hget, getElem_sums, zero_add]
    rfl

namespace Weighs

variable (h : s.Weighs list n)
include h

theorem total_pos : 0 < s.total := by
  rw [h.total, ← weightOf_zero list]
  exact weightOf_lt h.pos n.succ_pos h.length.ge

theorem length_cumulative : s.cumulative.length = list.length := by
  rw [h.cumulative, length_sums, List.length_map]

theorem getElem_cumulative (hi : i < s.cumulative.length) :
    s.cumulative[i] = weightOf list (i + 1) := by
  have hget := getElem_sums 0 (list.map (·.weight)) i (h.cumulative ▸ hi)
  rw [zero_add, ← weightOf] at hget
  simpa only [h.cumulative] using hget

theorem findIdx_eq_iff (hp : 0 ≤ p) (hi : i < list.length) :
    s.cumulative.findIdx (fun c => decide (p < c)) = i ↔
      weightOf list i ≤ p ∧ p < weightOf list (i + 1) := by
  have hlength : i < s.cumulative.length := h.length_cumulative ▸ hi
  rw [List.findIdx_eq hlength, h.getElem_cumulative, decide_eq_true_iff, and_comm]
  refine and_congr_left fun _ => ?_
  have hbelow (j : Nat) (hj : j < s.cumulative.length) :
      decide (p < s.cumulative[j]) = false ↔ weightOf list (j + 1) ≤ p := by
    rw [h.getElem_cumulative, decide_eq_false_iff_not, not_lt]
  refine ⟨fun hall => ?_, fun hle j hj => (hbelow j (hj.trans hlength)).mpr ?_⟩
  · cases i with
    | zero => rwa [weightOf_zero]
    | succ i => exact (hbelow i (Nat.lt_of_succ_lt hlength)).mp (hall i (Nat.lt_succ_self i))
  · exact (weightOf_le h.pos hj hi.le).trans hle

theorem indexAt_eq (u : Rat) : s.indexAt u =
    min (s.cumulative.findIdx fun c => decide (Scalar.clamp u 0 1 * s.total < c)) n := by
  have hn : n = s.scenarios.length - 1 := by rw [h.scenarios, h.length, Nat.add_sub_cancel]
  rw [hn]
  rfl

theorem indexAt_eq_iff (hlow : 0 ≤ u) (hhigh : u < 1) (hi : i < list.length) :
    s.indexAt u = i ↔ weightOf list i ≤ u * s.total ∧ u * s.total < weightOf list (i + 1) := by
  have hlast : n < s.cumulative.length := by rw [h.length_cumulative, h.length]; omega
  have hfound : s.cumulative.findIdx (fun c => decide (u * s.total < c)) < n + 1 := by
    rw [← h.length, ← h.length_cumulative]
    refine List.findIdx_lt_length_of_exists ⟨_, List.getElem_mem hlast, decide_eq_true ?_⟩
    rw [h.getElem_cumulative, ← h.total]
    exact mul_lt_of_lt_one_left h.total_pos hhigh
  rw [h.indexAt_eq, clamp_of_mem hlow hhigh.le, min_eq_left (Nat.le_of_lt_succ hfound),
    h.findIdx_eq_iff (mul_nonneg hlow h.total_pos.le) hi]

theorem indexAt_of_nonpos (hu : u ≤ 0) : s.indexAt u = 0 := by
  have hfirst : 0 < list.length := by rw [h.length]; exact n.succ_pos
  have hfound := (h.findIdx_eq_iff le_rfl hfirst).mpr
    ⟨(weightOf_zero list).le, weightOf_zero list ▸ weightOf_lt h.pos Nat.one_pos hfirst⟩
  rw [h.indexAt_eq, clamp_of_nonpos hu, zero_mul, hfound, Nat.zero_min]

theorem indexAt_of_one_le (hu : 1 ≤ u) : s.indexAt u = n := by
  have hfound : s.cumulative.findIdx (fun c => decide (s.total < c)) = s.cumulative.length := by
    refine List.findIdx_eq_length.mpr fun c hc => ?_
    obtain ⟨j, hj, rfl⟩ := List.getElem_of_mem hc
    rw [h.getElem_cumulative, decide_eq_false_iff_not, not_lt, h.total, ← h.length]
    exact weightOf_le h.pos (h.length_cumulative ▸ hj) le_rfl
  rw [h.indexAt_eq, clamp_of_one_le hu, one_mul, hfound, h.length_cumulative, h.length]
  exact min_eq_right n.le_succ

end Weighs

/-- Every point chooses one of the scenarios, and each scenario has the points of one interval. -/
structure Partitions (s : Selector Rat) (list : List (Scenario Rat)) : Prop where
  scenarios : s.scenarios = list
  chosen : ∀ u, list[s.indexAt u]? = some (s.selectAt u)
  total : 0 < weightOf list list.length
  /-- The scenario in whose part of the weights the point comes to lie. -/
  inside : ∀ u, 0 ≤ u → u < 1 → ∀ i, i < list.length →
    (s.indexAt u = i ↔ weightOf list i ≤ u * weightOf list list.length ∧
      u * weightOf list list.length < weightOf list (i + 1))
  below : ∀ u, u ≤ 0 → s.indexAt u = 0
  beyond : ∀ u, 1 ≤ u → s.indexAt u + 1 = list.length
  share : ∀ i x, list[i]? = some x → ∃ low high : Rat, 0 ≤ low ∧ high ≤ 1 ∧
    high - low = x.weight / weightOf list list.length ∧
      ∀ u, 0 ≤ u → u < 1 → (s.indexAt u = i ↔ low ≤ u ∧ u < high)

theorem Weighs.exists_interval (h : s.Weighs list n) (hi : i < list.length) :
    ∃ low high : Rat, 0 ≤ low ∧ high ≤ 1 ∧ high - low = list[i].weight / s.total ∧
      ∀ u, 0 ≤ u → u < 1 → (s.indexAt u = i ↔ low ≤ u ∧ u < high) := by
  have hpos := h.total_pos
  refine ⟨weightOf list i / s.total, weightOf list (i + 1) / s.total, ?_, ?_, ?_, ?_⟩
  · refine div_nonneg ?_ hpos.le
    rw [← weightOf_zero list]
    exact weightOf_le h.pos i.zero_le hi.le
  · rw [div_le_one₀ hpos, h.total]
    exact weightOf_le h.pos (h.length ▸ hi) h.length.ge
  · rw [← sub_div, weightOf_succ hi, add_sub_cancel_left]
  · intro u hlow hhigh
    rw [h.indexAt_eq_iff hlow hhigh hi, div_le_iff₀ hpos, lt_div_iff₀ hpos]

/-- Scenarios with positive weights share the points from zero to one as their weights have it. -/
theorem exists_partitions (hne : list ≠ []) (h : ∀ x ∈ list, 0 < x.weight) :
    ∃ s, ofList (list.map some) = .ok s ∧ s.Partitions list := by
  obtain ⟨s, n, hs, hw⟩ := exists_weighs hne h
  have htotal : weightOf list list.length = s.total := by rw [hw.total, hw.length]
  refine ⟨s, hs, hw.scenarios, fun u => ?_, htotal ▸ hw.total_pos, ?_, ?_, ?_, ?_⟩
  · obtain rfl := hw.scenarios
    exact List.getElem?_eq_getElem (s.indexAt_lt u)
  · intro u hlow hhigh i hi
    rw [htotal, hw.indexAt_eq_iff hlow hhigh hi]
  · exact fun u hu => hw.indexAt_of_nonpos hu
  · intro u hu
    rw [hw.indexAt_of_one_le hu, hw.length]
  · intro i x hx
    obtain ⟨hi, rfl⟩ := List.getElem?_eq_some_iff.mp hx
    rw [htotal]
    exact hw.exists_interval hi

theorem exists_partitions_three :
    let scenario (weight : Rat) : Scenario Rat := ⟨utf8 "s", weight, [], none⟩
    let list := [scenario 2, scenario 3, scenario 1]
    list ≠ [] ∧ (∀ x ∈ list, 0 < x.weight) ∧
      ∃ s, ofList (list.map some) = .ok s ∧ s.Partitions list ∧
        (∀ u, 1 / 3 ≤ u → u < 5 / 6 → s.indexAt u = 1) ∧ s.indexAt (5 / 6) = 2 := by
  intro scenario list
  have hne : list ≠ [] := List.cons_ne_nil _ _
  have hpos : ∀ x ∈ list, 0 < x.weight := by
    simp only [list, scenario, List.forall_mem_cons]
    norm_num
  obtain ⟨s, hs, h⟩ := exists_partitions hne hpos
  refine ⟨hne, hpos, s, hs, h, fun u hlow hhigh => ?_, ?_⟩
  · refine (h.inside u (by linarith) (by linarith) 1 (by decide)).mpr ?_
    norm_num [list, scenario, weightOf]
    constructor <;> linarith
  · exact (h.inside (5 / 6) (by norm_num) (by norm_num) 2 (by decide)).mpr
      (by norm_num [list, scenario, weightOf])

end LoadGenerator.Selector
