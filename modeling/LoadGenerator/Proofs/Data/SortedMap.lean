import LoadGenerator.Data.SortedMap
import Mathlib

namespace LoadGenerator.SortedMap

variable {κ α : Type} [LT κ]

def Sorted (m : SortedMap κ α) : Prop := m.Pairwise fun p q => p.1 < q.1

variable [DecidableEq κ] [DecidableLT κ]

theorem mem_insert {m : SortedMap κ α} {key : κ} {v : α} {p : κ × α} (h : p ∈ m.insert key v) :
    p = (key, v) ∨ p ∈ m := by
  induction m with
  | nil => exact .inl (List.mem_singleton.mp h)
  | cons q m ih =>
    obtain ⟨k, w⟩ := q
    rw [insert] at h
    split at h
    · rcases List.mem_cons.mp h with h | h
      · exact .inl h
      · exact .inr (List.mem_cons_of_mem _ h)
    · split at h
      · exact List.mem_cons.mp h
      · rcases List.mem_cons.mp h with h | h
        · exact .inr (h ▸ List.mem_cons_self)
        · exact (ih h).imp_right (List.mem_cons_of_mem _)

variable [LE κ] [Std.IsLinearOrder κ] [Std.LawfulOrderLT κ]

theorem sorted_insert {m : SortedMap κ α} (h : m.Sorted) (key : κ) (v : α) :
    (m.insert key v).Sorted := by
  induction m with
  | nil => exact List.pairwise_singleton _ _
  | cons q m ih =>
    obtain ⟨k, w⟩ := q
    obtain ⟨hk, hm⟩ := List.pairwise_cons.mp h
    rw [insert]
    split
    · next heq =>
      subst heq
      exact List.pairwise_cons.mpr ⟨hk, hm⟩
    · next hne =>
      split
      · next hlt =>
        refine List.pairwise_cons.mpr ⟨fun p hp => ?_, h⟩
        rcases List.mem_cons.mp hp with rfl | hp
        · exact hlt
        · exact Std.lt_trans hlt (hk p hp)
      · next hnlt =>
        refine List.pairwise_cons.mpr ⟨fun p hp => ?_, ih hm⟩
        rcases mem_insert hp with rfl | hp
        · exact Std.lt_of_le_of_ne (Std.not_lt.mp hnlt) (Ne.symm hne)
        · exact hk p hp

theorem sorted_alter {m : SortedMap κ α} (h : m.Sorted) (key : κ) (start : α) (f : α → α) :
    (m.alter key start f).Sorted := sorted_insert h key _

omit [DecidableLT κ] [Std.IsLinearOrder κ] in
theorem lookup_eq_none {m : SortedMap κ α} {key : κ} (h : ∀ p ∈ m, key < p.1) :
    List.lookup key m = none := by
  induction m with
  | nil => rfl
  | cons q m ih =>
    obtain ⟨k, w⟩ := q
    have hne : key ≠ k := by
      rintro rfl
      exact Std.lt_irrefl (h (key, w) List.mem_cons_self)
    rw [List.lookup_cons, beq_false_of_ne hne]
    exact ih fun p hp => h p (List.mem_cons_of_mem _ hp)

theorem sum_alter {m : SortedMap κ α} (h : m.Sorted) (weight : α → Nat) {start : α} {f : α → α}
    (hstart : weight start = 0) (hf : ∀ v, weight (f v) = weight v + 1) (key : κ) :
    ((m.alter key start f).map fun p => weight p.2).sum = (m.map fun p => weight p.2).sum + 1 := by
  induction m with
  | nil => simp [alter, insert, get?, hf, hstart]
  | cons q m ih =>
    obtain ⟨k, v⟩ := q
    obtain ⟨hk, hm⟩ := List.pairwise_cons.mp h
    have ih := ih hm
    rw [alter, get?] at *
    by_cases heq : key = k
    · subst heq
      simp [insert, hf]
      omega
    · have hl : List.lookup key ((k, v) :: m) = List.lookup key m := by
        rw [List.lookup_cons, beq_false_of_ne heq]
      by_cases hlt : key < k
      · have hnone : List.lookup key m = none :=
          lookup_eq_none fun p hp => Std.lt_trans hlt (hk p hp)
        simp [insert, heq, hlt, hl, hnone, hf, hstart]
        omega
      · simp only [insert, heq, hlt, hl, if_false, List.map_cons, List.sum_cons, ih]
        omega

section

variable {κ α β : Type}

theorem nodup_keys [LT κ] [Std.Irrefl fun a b : κ => a < b] {m : SortedMap κ α} (h : m.Sorted) :
    (m.map (·.1)).Nodup := by
  rw [List.Nodup, List.pairwise_map]
  apply h.imp
  rintro p q hlt heq
  rw [heq] at hlt
  exact Std.Irrefl.irrefl _ hlt

theorem sorted_map [LT κ] {m : SortedMap κ α} (h : m.Sorted) (f : α → β) :
    Sorted (m.map fun (k, v) => (k, f v)) := List.pairwise_map.mpr h

variable [DecidableEq κ]

theorem sorted_erase [LT κ] {m : SortedMap κ α} (h : m.Sorted) (key : κ) : (m.erase key).Sorted :=
  h.filter _

theorem get?_cons (k : κ) (w : α) (m : SortedMap κ α) (key : κ) :
    get? ((k, w) :: m) key = if key = k then some w else m.get? key := by
  rw [get?, List.lookup_cons]
  by_cases h : key = k
  · rw [if_pos h, beq_iff_eq.mpr h]
  · rw [if_neg h, beq_false_of_ne h]
    rfl

theorem get?_erase (m : SortedMap κ α) (key key' : κ) :
    (m.erase key).get? key' = if key' = key then none else m.get? key' := by
  induction m with
  | nil => simp [erase, get?]
  | cons p m ih =>
    obtain ⟨k, w⟩ := p
    rw [erase, get?_cons]
    by_cases hk : k = key
    · subst hk
      rw [List.filter_cons_of_neg (by simp), ← erase, ih]
      split <;> rfl
    · rw [List.filter_cons_of_pos (by simpa using hk), get?_cons, ← erase, ih]
      by_cases h : key' = k
      · rw [if_pos h, if_pos h, if_neg]
        rintro rfl
        exact hk h.symm
      · rw [if_neg h, if_neg h]

theorem get?_map (m : SortedMap κ α) (f : α → β) (key : κ) :
    get? (m.map fun (k, v) => (k, f v)) key = (m.get? key).map f := by
  induction m with
  | nil => rfl
  | cons p m ih =>
    obtain ⟨k, w⟩ := p
    rw [List.map_cons, get?_cons, get?_cons, ih]
    split <;> rfl

theorem mem_keys_iff (m : SortedMap κ α) (key : κ) :
    key ∈ m.map (·.1) ↔ (m.get? key).isSome = true := by
  induction m with
  | nil => simp [get?]
  | cons p m ih =>
    obtain ⟨k, w⟩ := p
    rw [List.map_cons, List.mem_cons, ih, get?_cons]
    split <;> simp_all

variable [LT κ] [DecidableLT κ]

theorem get?_insert (m : SortedMap κ α) (key key' : κ) (v : α) :
    (m.insert key v).get? key' = if key' = key then some v else m.get? key' := by
  induction m with
  | nil => exact get?_cons key v [] key'
  | cons p m ih =>
    obtain ⟨k, w⟩ := p
    rw [insert]
    by_cases hk : key = k
    · subst hk
      rw [if_pos rfl, get?_cons, get?_cons]
      split <;> rfl
    · rw [if_neg hk]
      by_cases hlt : key < k
      · rw [if_pos hlt, get?_cons]
      · rw [if_neg hlt, get?_cons, ih, get?_cons]
        by_cases h : key' = k
        · rw [if_pos h, if_pos h, if_neg]
          rintro rfl
          exact hk h
        · rw [if_neg h, if_neg h]

theorem get?_alter (m : SortedMap κ α) (key key' : κ) (start : α) (f : α → α) :
    (m.alter key start f).get? key' =
      if key' = key then some (f ((m.get? key).getD start)) else m.get? key' :=
  get?_insert m key key' _

end

end LoadGenerator.SortedMap
