import LoadGenerator.Proofs.Http.Pool
import Mathlib.Algebra.Group.Action.Defs
import Mathlib.Algebra.Order.BigOperators.Ring.Finset

namespace LoadGenerator.Http.Pool

variable {σ : Type} {p start : Pool σ} {calls : Calls σ} {host : Bytes} {owners : Finset Nat}

/-- How many connections to a host are idle, whoever has opened them. -/
def idleTo (p : Pool σ) (host : Bytes) : Nat := p.idle.countP (·.key.host = host)

def Call.releaser? (host : Bytes) : Call σ → Option Nat
  | release key (some _) => if key.host = host then some key.owner else none
  | _ => none

def releasers (calls : Calls σ) (host : Bytes) : Finset Nat :=
  (calls.filterMap (·.2.releaser? host)).toFinset

theorem mem_releasers_iff {owner : Nat} : owner ∈ releasers calls host ↔
    ∃ now connection, (now, Call.release ⟨host, owner⟩ (some connection)) ∈ calls := by
  rw [releasers, List.mem_toFinset, List.mem_filterMap]
  constructor
  · rintro ⟨⟨now, call⟩, hmem, hcall⟩
    rcases call with _ | ⟨⟨host', owner'⟩, _ | connection⟩ | _
    case release.some =>
      obtain ⟨rfl, rfl⟩ : host' = host ∧ owner' = owner := by simpa [Call.releaser?] using hcall
      exact ⟨now, connection, hmem⟩
    all_goals cases hcall
  · rintro ⟨now, connection, hmem⟩
    exact ⟨_, hmem, if_pos rfl⟩

theorem countP_host {idle : List (Idle σ)}
    (h : ∀ e ∈ idle, e.key.host = host → e.key.owner ∈ owners) :
    idle.countP (·.key.host = host) = ∑ owner ∈ owners, idle.countP (·.key = ⟨host, owner⟩) := by
  induction idle with
  | nil => simp
  | cons e idle ih =>
    obtain ⟨hown, h⟩ := List.forall_mem_cons.mp h
    simp only [List.countP_cons, Finset.sum_add_distrib, ih h, decide_eq_true_eq]
    congr 1
    by_cases hhost : e.key.host = host
    · have hkey : ∀ owner, (e.key = ⟨host, owner⟩) = (e.key.owner = owner) := by
        intro owner
        obtain ⟨key, connection, since⟩ := e
        obtain ⟨host', owner'⟩ := key
        simp_all
      simp only [hkey, hhost, if_true, Finset.sum_ite_eq, hown hhost]
    · have hkey : ∀ owner, e.key ≠ ⟨host, owner⟩ := fun owner heq => hhost (by rw [heq])
      simp [hhost, hkey]

theorem length_stackOf (p : Pool σ) (key : PoolKey) :
    (p.stackOf key).length = p.idle.countP (·.key = key) := by
  rw [stackOf, List.length_reverse, List.countP_eq_length_filter]

theorem idleTo_eq_sum (h : ∀ e ∈ p.idle, e.key.host = host → e.key.owner ∈ owners) :
    p.idleTo host = ∑ owner ∈ owners, (p.stackOf ⟨host, owner⟩).length := by
  simp only [length_stackOf]
  exact countP_host h

theorem idleTo_after_eq_sum (hstart : start.idle = []) (h : releasers calls host ⊆ owners) :
    (start.after calls).idleTo host =
      ∑ owner ∈ owners, (Stacks.after start.limits calls ⟨host, owner⟩).length := by
  rw [← (after_stacks hstart calls).2.1]
  refine idleTo_eq_sum fun e he hhost => h ?_
  have hmem := mem_after hstart he
  rw [mem_releasers_iff, ← hhost]
  exact ⟨e.since, e.connection, hmem⟩

theorem idleTo_after_le (hstart : start.idle = []) (calls : Calls σ) (host : Bytes) :
    (start.after calls).idleTo host ≤ start.maxIdle * (releasers calls host).card := by
  rw [idleTo_after_eq_sum hstart (Finset.Subset.refl _), Nat.mul_comm, ← smul_eq_mul]
  exact Finset.sum_le_card_nsmul _ _ _ fun owner _ => length_after_le start.limits calls _

def releasing (key : PoolKey) (connection : σ) (n : Nat) : Calls σ :=
  List.replicate n (0, .release key (some connection))

section

variable {l : Limits} {key other : PoolKey} {connection : σ} {n : Nat}

theorem after_releasing (hfresh : 0 < l.timeout) (hn : n ≤ l.maxIdle)
    (hempty : Stacks.after l calls key = []) :
    Stacks.after l (releasing key connection n ++ calls) key =
      List.replicate n ⟨key, connection, 0⟩ := by
  induction n with
  | zero => exact hempty
  | succ n ih =>
    have hmax : l.maxIdle ≠ 0 := by omega
    have hkept : ∀ n, Stacks.fresh l 0 (List.replicate n (⟨key, connection, 0⟩ : Idle σ)) =
        List.replicate n ⟨key, connection, 0⟩ := by
      intro n
      rw [Stacks.fresh, List.filter_replicate]
      simp [hfresh]
    have hroom : ¬l.maxIdle ≤ (List.replicate n (⟨key, connection, 0⟩ : Idle σ)).length := by
      rw [List.length_replicate]
      omega
    rw [releasing, List.replicate_succ, List.cons_append, Stacks.after, Stacks.perform,
      if_neg hmax]
    change Function.update _ key _ key = _
    rw [Function.update_self, ← releasing, ih (by omega), hkept, Stacks.makeRoom, if_neg hroom]
    rfl

theorem after_releasing_of_ne (hother : other ≠ key) :
    Stacks.after l (releasing key connection n ++ calls) other = Stacks.after l calls other := by
  induction n with
  | zero => rfl
  | succ n ih =>
    rw [releasing, List.replicate_succ, List.cons_append, Stacks.after, Stacks.perform]
    split
    · exact ih
    · change Function.update _ key _ other = _
      rw [Function.update_of_ne hother]
      exact ih

def filling (host : Bytes) (connection : σ) (n : Nat) (workers : List Nat) : Calls σ :=
  workers.flatMap fun owner => releasing ⟨host, owner⟩ connection n

theorem after_filling (hfresh : 0 < l.timeout) {workers : List Nat} (hnodup : workers.Nodup)
    {owner : Nat} : Stacks.after l (filling host connection l.maxIdle workers) ⟨host, owner⟩ =
      if owner ∈ workers then List.replicate l.maxIdle ⟨⟨host, owner⟩, connection, 0⟩ else [] := by
  induction workers with
  | nil => rfl
  | cons worker workers ih =>
    obtain ⟨hnew, hnodup'⟩ := List.nodup_cons.mp hnodup
    rw [filling, List.flatMap_cons, ← filling]
    by_cases howner : owner = worker
    · subst howner
      rw [if_pos List.mem_cons_self]
      exact after_releasing hfresh le_rfl ((ih hnodup').trans (if_neg hnew))
    · have hkey : (⟨host, owner⟩ : PoolKey) ≠ ⟨host, worker⟩ := by simp [howner]
      rw [after_releasing_of_ne hkey, ih hnodup']
      simp [howner]

theorem releasers_filling_subset {workers : List Nat} :
    releasers (filling host connection n workers) host ⊆ workers.toFinset := by
  intro owner howner
  obtain ⟨now, c, hmem⟩ := mem_releasers_iff.mp howner
  obtain ⟨worker, hworker, hmem⟩ := List.mem_flatMap.mp hmem
  have heq := List.eq_of_mem_replicate hmem
  obtain ⟨-, rfl, -⟩ : now = 0 ∧ owner = worker ∧ c = connection := by simpa using heq
  exact List.mem_toFinset.mpr hworker

end

/-- The cap on the idle connections of a host, for each worker that releases some. -/
structure CapsHosts (maxIdle : Nat) (timeoutMs : Int) (σ : Type) : Prop where
  alone : ∀ (calls : Calls σ) host, (releasers calls host).card ≤ 1 →
    ((create maxIdle timeoutMs).after calls).idleTo host ≤ maxIdle
  together : ∀ (calls : Calls σ) host,
    ((create maxIdle timeoutMs).after calls).idleTo host ≤ maxIdle * (releasers calls host).card
  full : ∀ (_ : σ) host (owners : Finset Nat), 0 < Clock.ofMillis timeoutMs →
    ∃ calls : Calls σ, releasers calls host ⊆ owners ∧
      ((create maxIdle timeoutMs).after calls).idleTo host = maxIdle * owners.card

theorem caps_hosts (maxIdle : Nat) (timeoutMs : Int) (σ : Type) :
    CapsHosts maxIdle timeoutMs σ where
  alone calls host hone := by
    have hle : ((create maxIdle timeoutMs).after calls).idleTo host ≤
        maxIdle * (releasers calls host).card := idleTo_after_le rfl calls host
    exact hle.trans (mul_le_of_le_one_right' hone)
  together := idleTo_after_le rfl
  full connection host owners hfresh := by
    have hsubset : releasers (filling host connection maxIdle owners.toList) host ⊆ owners :=
      releasers_filling_subset.trans (Finset.toList_toFinset owners).subset
    refine ⟨filling host connection maxIdle owners.toList, hsubset, ?_⟩
    have hstack : ∀ owner ∈ owners, (Stacks.after (create maxIdle timeoutMs : Pool σ).limits
        (filling host connection maxIdle owners.toList) ⟨host, owner⟩).length = maxIdle := by
      intro owner howner
      have hafter : Stacks.after (create maxIdle timeoutMs : Pool σ).limits
          (filling host connection maxIdle owners.toList) ⟨host, owner⟩ =
            if owner ∈ owners.toList then List.replicate maxIdle ⟨⟨host, owner⟩, connection, 0⟩
            else [] := after_filling hfresh owners.nodup_toList
      rw [hafter, if_pos (Finset.mem_toList.mpr howner), List.length_replicate]
    rw [idleTo_after_eq_sum rfl hsubset, Finset.sum_congr rfl hstack, Finset.sum_const,
      smul_eq_mul, Nat.mul_comm]

/-- Two workers that may keep one connection each keep two connections to one host. -/
theorem exists_above_cap :
    ((create 1 90000 : Pool Nat).after
      [(1, .release ⟨utf8 "h", 2⟩ (some 1)), (0, .release ⟨utf8 "h", 1⟩ (some 0))]).idleTo
        (utf8 "h") = 2 := by
  decide

end LoadGenerator.Http.Pool
