import LoadGenerator.Http.Pool
import Mathlib.Algebra.Order.Group.Multiset
import Mathlib.Logic.Function.Basic
import Mathlib.Tactic.Abel

namespace LoadGenerator.Http

variable {σ : Type}

namespace Pool

inductive Call (σ : Type) where
  | acquire (key : PoolKey)
  | release (key : PoolKey) (connection : Option σ)
  | clear

/-- Calls and the times at which they are made, the newest first. -/
abbrev Calls (σ : Type) := List (Int × Call σ)

namespace Call

def perform (p : Pool σ) (now : Int) : Call σ → Turnover σ
  | acquire key => p.acquire now key
  | release key connection => p.release now key connection
  | clear => p.clear

def key? : Call σ → Option PoolKey
  | acquire key => some key
  | release key _ => some key
  | clear => none

def given : Call σ → Option σ
  | release _ connection => connection
  | _ => none

end Call

def after (p : Pool σ) : Calls σ → Pool σ
  | [] => p
  | (now, call) :: calls => (call.perform (p.after calls) now).pool

def turns (p : Pool σ) : Calls σ → List (Turnover σ)
  | [] => []
  | (now, call) :: calls => call.perform (p.after calls) now :: p.turns calls

def answers (p : Pool σ) (calls : Calls σ) : List (Option σ) := (p.turns calls).map (·.handed)

def handed (p : Pool σ) (calls : Calls σ) : List σ := (p.turns calls).flatMap (·.handed.toList)

def closed (p : Pool σ) (calls : Calls σ) : List σ := (p.turns calls).flatMap (·.closed)

def connections (p : Pool σ) : List σ := p.idle.map (·.connection)

def released (calls : Calls σ) : List σ := calls.flatMap (·.2.given.toList)

/-- What is idle under each key, the newest first. -/
abbrev Stacks (σ : Type) := PoolKey → List (Idle σ)

/-- How many connections of a key may be idle, and for how many nanoseconds. -/
structure Limits where
  maxIdle : Nat
  timeout : Int

namespace Stacks

def fresh (l : Limits) (now : Int) (stack : List (Idle σ)) : List (Idle σ) :=
  stack.filter fun e => now - e.since < l.timeout

def makeRoom (l : Limits) (stack : List (Idle σ)) : List (Idle σ) :=
  if l.maxIdle ≤ stack.length then stack.dropLast else stack

def perform (l : Limits) (now : Int) (s : Stacks σ) : Call σ → Option σ × Stacks σ
  | .acquire key =>
    let stack := fresh l now (s key)
    (stack.head?.map (·.connection), Function.update s key stack.tail)
  | .release _ none => (none, s)
  | .release key (some connection) =>
    if l.maxIdle = 0 then (none, s)
    else
      let stack := makeRoom l (fresh l now (s key))
      (none, Function.update s key (⟨key, connection, now⟩ :: stack))
  | .clear => (none, fun _ => [])

def after (l : Limits) : Calls σ → Stacks σ
  | [] => fun _ => []
  | (now, call) :: calls => (perform l now (after l calls) call).2

def answers (l : Limits) : Calls σ → List (Option σ)
  | [] => []
  | (now, call) :: calls => (perform l now (after l calls) call).1 :: answers l calls

end Stacks

def stackOf (p : Pool σ) : Stacks σ := fun key => (p.idle.filter (·.key = key)).reverse

def limits (p : Pool σ) : Limits := ⟨p.maxIdle, Clock.ofMillis p.idleTimeoutMs⟩

section

variable {α : Type} {f g : α → Bool} {l : List α} {a : α}

theorem filter_eraseP_self (f : α → Bool) (l : List α) :
    (l.eraseP f).filter f = (l.filter f).tail := by
  induction l with
  | nil => rfl
  | cons a l ih => cases h : f a <;> simp [h, ih]

theorem filter_eraseP_of_disjoint (h : ∀ a, f a = true → g a = false) :
    (l.eraseP f).filter g = l.filter g := by
  induction l with
  | nil => rfl
  | cons a l ih =>
    cases hf : f a with
    | true => simp [hf, h a hf]
    | false => simp [hf, List.filter_cons, ih]

theorem perm_cons_eraseP (h : l.find? f = some a) : l.Perm (a :: l.eraseP f) := by
  induction l with
  | nil => simp at h
  | cons b l ih =>
    cases hf : f b with
    | true =>
      obtain rfl : b = a := by simpa [hf] using h
      simp [hf]
    | false =>
      have hl : l.find? f = some a := by simpa [hf] using h
      simpa [hf] using ((ih hl).cons b).trans (.swap a b _)

end

variable {p q r : Pool σ} {now : Int} {key other : PoolKey} {stack stack' idle : List (Idle σ)}

structure Touches (key : PoolKey) (p q : Pool σ) (stack : List (Idle σ)) : Prop where
  limits : q.limits = p.limits
  own : q.stackOf key = stack
  others : q.idle.filter (·.key ≠ key) = p.idle.filter (·.key ≠ key)

namespace Touches

theorem trans (h : Touches key p q stack) (h' : Touches key q r stack') :
    Touches key p r stack' :=
  ⟨h'.limits.trans h.limits, h'.own, h'.others.trans h.others⟩

theorem stacks_of_ne (h : Touches key p q stack) (hother : other ≠ key) :
    q.stackOf other = p.stackOf other := by
  have hfilter : ∀ p : Pool σ, (p.idle.filter (·.key ≠ key)).filter (·.key = other) =
      p.idle.filter (·.key = other) := by
    intro p
    rw [List.filter_filter]
    congr 1
    funext e
    by_cases he : e.key = other <;> simp [he, hother]
  rw [stackOf, stackOf, ← hfilter, h.others, hfilter]

theorem stacks_eq (h : Touches key p q stack) : q.stackOf = Function.update p.stackOf key stack :=
  Function.eq_update_iff.mpr ⟨h.own, fun _ hother => h.stacks_of_ne hother⟩

end Touches

theorem not_ne_key : ∀ e : Idle σ, decide (e.key = key) = true → decide (e.key ≠ key) = false := by
  simp

theorem takeStale_eq (p : Pool σ) (now : Int) (key : PoolKey) :
    p.takeStale now key = (p.idle.filter (fun e => e.key = key && p.isStale now e),
      { p with idle := p.idle.filter fun e => !(e.key = key && p.isStale now e) }) := by
  rw [takeStale, List.partition_eq_filter_filter]
  rfl

theorem not_isStale (p : Pool σ) (now : Int) (e : Idle σ) :
    (!p.isStale now e) = decide (now - e.since < p.limits.timeout) := by
  rw [Bool.eq_iff_iff, Bool.not_eq_true', decide_eq_true_iff]
  exact decide_eq_false_iff_not.trans Int.not_le

theorem touches_takeStale (p : Pool σ) (now : Int) (key : PoolKey) :
    Touches key p (p.takeStale now key).2 (Stacks.fresh p.limits now (p.stackOf key)) := by
  rw [takeStale_eq]
  refine ⟨rfl, ?_, ?_⟩
  · simp only [stackOf, Stacks.fresh, List.filter_reverse, List.filter_filter]
    congr 2
    funext e
    by_cases he : e.key = key <;> simp [he, not_isStale]
  · simp only [List.filter_filter]
    congr 1
    funext e
    by_cases he : e.key = key <;> simp [he]

theorem takeLast?_eq_none_iff : takeLast? key p.idle = none ↔ p.stackOf key = [] := by
  rw [takeLast?, Option.map_eq_none_iff, ← List.head?_filter, List.head?_eq_none_iff,
    List.filter_reverse]
  rfl

theorem of_takeLast? {e : Idle σ} (h : takeLast? key p.idle = some (e, idle)) :
    p.idle.reverse.find? (·.key = key) = some e ∧
      idle = (p.idle.reverse.eraseP (·.key = key)).reverse := by
  obtain ⟨e', hfind, heq⟩ := Option.map_eq_some_iff.mp h
  obtain ⟨rfl, rfl⟩ : e' = e ∧ (p.idle.reverse.eraseP (·.key = key)).reverse = idle := by
    simpa using heq
  exact ⟨hfind, rfl⟩

theorem touches_takeLast? {e : Idle σ} (h : takeLast? key p.idle = some (e, idle)) :
    p.stackOf key = e :: (p.stackOf key).tail ∧
      Touches key p { p with idle } (p.stackOf key).tail := by
  obtain ⟨hfind, rfl⟩ := of_takeLast? h
  rw [← List.head?_filter, List.filter_reverse] at hfind
  refine ⟨List.eq_cons_of_mem_head? hfind, rfl, ?_, ?_⟩
  · rw [stackOf, ← List.filter_reverse, List.reverse_reverse, filter_eraseP_self,
      List.filter_reverse]
    rfl
  · rw [List.filter_reverse, filter_eraseP_of_disjoint not_ne_key, ← List.filter_reverse,
      List.reverse_reverse]

theorem touches_makeRoom (p : Pool σ) (key : PoolKey) :
    Touches key p (p.makeRoom key).2 (Stacks.makeRoom p.limits (p.stackOf key)) := by
  have hlength : (p.stackOf key).length = p.idle.countP (·.key = key) := by
    rw [stackOf, List.length_reverse, List.countP_eq_length_filter]
  rw [makeRoom, Stacks.makeRoom, hlength]
  show Touches key p _ (if p.maxIdle ≤ _ then _ else _)
  split
  · refine ⟨rfl, ?_, filter_eraseP_of_disjoint not_ne_key⟩
    rw [stackOf, filter_eraseP_self, ← List.dropLast_reverse]
    rfl
  · exact ⟨rfl, rfl, rfl⟩

theorem touches_append (e : Idle σ) :
    Touches e.key p { p with idle := p.idle ++ [e] } (e :: p.stackOf e.key) := by
  refine ⟨rfl, ?_, ?_⟩
  · simp [stackOf, List.filter_append]
  · simp [List.filter_append]

variable {call : Call σ} {calls : Calls σ} {connection : σ} {t : Turnover σ} {e : Idle σ}

inductive Performs (p : Pool σ) (now : Int) : Call σ → Turnover σ → Prop
  | missed {key : PoolKey} (h : takeLast? key (p.takeStale now key).2.idle = none) :
    Performs p now (.acquire key)
      ⟨none, (p.takeStale now key).1.map (·.connection), (p.takeStale now key).2⟩
  | found {key : PoolKey} {e : Idle σ} {idle : List (Idle σ)}
    (h : takeLast? key (p.takeStale now key).2.idle = some (e, idle)) :
    Performs p now (.acquire key)
      ⟨some e.connection, (p.takeStale now key).1.map (·.connection),
        { (p.takeStale now key).2 with idle }⟩
  | ignored {key : PoolKey} : Performs p now (.release key none) ⟨none, [], p⟩
  | refused {key : PoolKey} {connection : σ} (hmax : p.maxIdle = 0) :
    Performs p now (.release key (some connection)) ⟨none, [connection], p⟩
  | kept {key : PoolKey} {connection : σ} (hmax : p.maxIdle ≠ 0) :
    Performs p now (.release key (some connection))
      ⟨none, ((p.takeStale now key).1 ++
        ((p.takeStale now key).2.makeRoom key).1.toList).map (·.connection),
        { ((p.takeStale now key).2.makeRoom key).2 with
          idle := ((p.takeStale now key).2.makeRoom key).2.idle ++ [⟨key, connection, now⟩] }⟩
  | cleared : Performs p now .clear ⟨none, p.connections, { p with idle := [] }⟩

theorem performs (call : Call σ) (p : Pool σ) (now : Int) :
    Performs p now call (call.perform p now) := by
  cases call with
  | acquire key =>
    rw [Call.perform, acquire]
    dsimp only
    split
    · next h => exact .found h
    · next h => exact .missed h
  | release key connection =>
    cases connection with
    | none => exact .ignored
    | some connection =>
      rw [Call.perform, release]
      split
      · next hmax => exact .refused hmax
      · next hmax => exact .kept hmax
  | clear => exact .cleared

theorem touches_missed (h : takeLast? key (p.takeStale now key).2.idle = none) :
    (Stacks.fresh p.limits now (p.stackOf key)).head? = none ∧
      Touches key p (p.takeStale now key).2 (Stacks.fresh p.limits now (p.stackOf key)).tail := by
  have hstale := touches_takeStale p now key
  have hempty := takeLast?_eq_none_iff.mp h
  rw [hstale.own] at hempty
  rw [hempty] at hstale ⊢
  exact ⟨rfl, hstale⟩

theorem touches_found (h : takeLast? key (p.takeStale now key).2.idle = some (e, idle)) :
    (Stacks.fresh p.limits now (p.stackOf key)).head? = some e ∧
      Touches key p { (p.takeStale now key).2 with idle }
        (Stacks.fresh p.limits now (p.stackOf key)).tail := by
  have hstale := touches_takeStale p now key
  obtain ⟨hcons, hlast⟩ := touches_takeLast? h
  rw [hstale.own] at hcons hlast
  exact ⟨by rw [hcons, List.head?_cons], hstale.trans hlast⟩

theorem touches_kept (p : Pool σ) (now : Int) (key : PoolKey) (connection : σ) :
    Touches key p { ((p.takeStale now key).2.makeRoom key).2 with
        idle := ((p.takeStale now key).2.makeRoom key).2.idle ++ [⟨key, connection, now⟩] }
      (⟨key, connection, now⟩ ::
        Stacks.makeRoom p.limits (Stacks.fresh p.limits now (p.stackOf key))) := by
  have hstale := touches_takeStale p now key
  have hroom := touches_makeRoom (p.takeStale now key).2 key
  rw [hstale.own, hstale.limits] at hroom
  have hpush := touches_append (p := ((p.takeStale now key).2.makeRoom key).2)
    (⟨key, connection, now⟩ : Idle σ)
  rw [hroom.own] at hpush
  exact hstale.trans (hroom.trans hpush)

namespace Performs

theorem stacks_eq (h : Performs p now call t) :
    t.pool.limits = p.limits ∧
      (t.handed, t.pool.stackOf) = Stacks.perform p.limits now p.stackOf call := by
  cases h with
  | missed h =>
    obtain ⟨hhead, htouches⟩ := touches_missed h
    rw [Stacks.perform, hhead]
    exact ⟨htouches.limits, Prod.ext rfl htouches.stacks_eq⟩
  | found h =>
    obtain ⟨hhead, htouches⟩ := touches_found h
    rw [Stacks.perform, hhead]
    exact ⟨htouches.limits, Prod.ext rfl htouches.stacks_eq⟩
  | ignored => exact ⟨rfl, rfl⟩
  | refused hmax =>
    have hlimit : p.limits.maxIdle = 0 := hmax
    rw [Stacks.perform, if_pos hlimit]
    exact ⟨rfl, rfl⟩
  | @kept key connection hmax =>
    have htouches := touches_kept p now key connection
    have hlimit : p.limits.maxIdle ≠ 0 := hmax
    rw [Stacks.perform, if_neg hlimit]
    exact ⟨htouches.limits, Prod.ext rfl htouches.stacks_eq⟩
  | cleared => exact ⟨rfl, rfl⟩

theorem others (h : Performs p now call t) (hkey : call.key? = some key) :
    t.pool.idle.filter (·.key ≠ key) = p.idle.filter (·.key ≠ key) := by
  cases h with
  | missed h =>
    obtain rfl := Option.some.inj hkey
    exact (touches_missed h).2.others
  | found h =>
    obtain rfl := Option.some.inj hkey
    exact (touches_found h).2.others
  | ignored => rfl
  | refused hmax => rfl
  | kept hmax =>
    obtain rfl := Option.some.inj hkey
    exact (touches_kept p now _ _).others
  | cleared => cases hkey

end Performs

def Call.entry (now : Int) : Call σ → List (Idle σ)
  | release key (some connection) => [⟨key, connection, now⟩]
  | _ => []

theorem perm_takeStale (p : Pool σ) (now : Int) (key : PoolKey) :
    p.idle.Perm ((p.takeStale now key).1 ++ (p.takeStale now key).2.idle) := by
  rw [takeStale_eq]
  exact (List.filter_append_perm _ _).symm

theorem perm_takeLast? {e : Idle σ} (h : takeLast? key p.idle = some (e, idle)) :
    p.idle.Perm (e :: idle) := by
  obtain ⟨hfind, rfl⟩ := of_takeLast? h
  exact (List.reverse_perm _).symm.trans
    ((perm_cons_eraseP hfind).trans ((List.reverse_perm _).symm.cons e))

theorem perm_makeRoom (p : Pool σ) (key : PoolKey) :
    p.idle.Perm ((p.makeRoom key).1.toList ++ (p.makeRoom key).2.idle) := by
  rw [makeRoom]
  split
  · cases hfind : p.idle.find? (·.key = key) with
    | none =>
      rw [List.find?_eq_none] at hfind
      rw [List.eraseP_of_forall_not hfind]
      exact .refl _
    | some e => exact perm_cons_eraseP hfind
  · exact .refl _

theorem Performs.perm (h : Performs p now call t) :
    (call.given.toList ++ p.connections).Perm
      (t.handed.toList ++ t.closed ++ t.pool.connections) := by
  cases h with
  | @missed key h =>
    have hperm := (perm_takeStale p now key).map (·.connection)
    rwa [List.map_append] at hperm
  | @found key e idle h =>
    have hperm : p.idle.Perm (e :: ((p.takeStale now key).1 ++ idle)) :=
      (perm_takeStale p now key).trans (((perm_takeLast? h).append_left _).trans List.perm_middle)
    simpa [connections, Call.given] using hperm.map (·.connection)
  | ignored => exact .refl _
  | refused hmax => exact .refl _
  | @kept key connection hmax =>
    have hroom := (perm_makeRoom (p.takeStale now key).2 key).append_left (p.takeStale now key).1
    have hperm := ((perm_takeStale p now key).trans hroom).cons ⟨key, connection, now⟩
    rw [← List.append_assoc] at hperm
    have hlast := hperm.trans (List.perm_append_singleton _ _).symm
    simpa [connections, Call.given] using hlast.map (·.connection)
  | cleared => simp [connections, Call.given]

theorem sublist_takeStale (p : Pool σ) (now : Int) (key : PoolKey) :
    (p.takeStale now key).2.idle.Sublist p.idle := by
  rw [takeStale_eq]
  exact List.filter_sublist

theorem sublist_takeLast? {e : Idle σ} (h : takeLast? key p.idle = some (e, idle)) :
    idle.Sublist p.idle := by
  obtain ⟨-, rfl⟩ := of_takeLast? h
  rw [← List.reverse_sublist, List.reverse_reverse]
  exact List.eraseP_sublist

theorem sublist_makeRoom (p : Pool σ) (key : PoolKey) :
    (p.makeRoom key).2.idle.Sublist p.idle := by
  rw [makeRoom]
  split
  · exact List.eraseP_sublist
  · exact .refl _

theorem Performs.sublist (h : Performs p now call t) :
    t.pool.idle.Sublist (p.idle ++ call.entry now) := by
  cases h with
  | @missed key h => exact (sublist_takeStale p now key).trans (List.sublist_append_left _ _)
  | @found key e idle h =>
    exact (sublist_takeLast? h).trans
      ((sublist_takeStale p now key).trans (List.sublist_append_left _ _))
  | ignored => exact List.sublist_append_left _ _
  | refused hmax => exact List.sublist_append_left _ _
  | @kept key connection hmax =>
    exact ((sublist_makeRoom _ key).trans (sublist_takeStale p now key)).append (.refl _)
  | cleared => exact List.nil_sublist _

variable {start : Pool σ}

theorem after_stacks (hstart : start.idle = []) (calls : Calls σ) :
    (start.after calls).limits = start.limits ∧
      (start.after calls).stackOf = Stacks.after start.limits calls ∧
      start.answers calls = Stacks.answers start.limits calls := by
  induction calls with
  | nil =>
    refine ⟨rfl, ?_, rfl⟩
    funext key
    rw [after, stackOf, hstart]
    rfl
  | cons timed calls ih =>
    obtain ⟨now, call⟩ := timed
    obtain ⟨hlimits, hstacks, hanswers⟩ := ih
    obtain ⟨hkeep, hperform⟩ := (performs call (start.after calls) now).stacks_eq
    rw [hlimits, hstacks] at hperform
    refine ⟨hkeep.trans hlimits, congrArg Prod.snd hperform, ?_⟩
    rw [Stacks.answers, ← hanswers, ← hperform]
    rfl

theorem perm_after (hstart : start.idle = []) (calls : Calls σ) :
    (released calls).Perm
      (start.handed calls ++ start.closed calls ++ (start.after calls).connections) := by
  induction calls with
  | nil =>
    rw [after, connections, hstart]
    exact .refl _
  | cons timed calls ih =>
    obtain ⟨now, call⟩ := timed
    have hcall := (performs call (start.after calls) now).perm
    show (call.given.toList ++ released calls).Perm
      (((call.perform (start.after calls) now).handed.toList ++ start.handed calls) ++
        ((call.perform (start.after calls) now).closed ++ start.closed calls) ++
        (call.perform (start.after calls) now).pool.connections)
    rw [← Multiset.coe_eq_coe] at hcall ih ⊢
    simp only [← Multiset.coe_add] at hcall ih ⊢
    calc (call.given.toList : Multiset σ) + released calls
        = (call.given.toList + (start.after calls).connections) +
          (start.handed calls + start.closed calls) := by rw [ih]; abel
      _ = _ := by rw [hcall]; abel

theorem mem_after (hstart : start.idle = []) {e : Idle σ} (h : e ∈ (start.after calls).idle) :
    (e.since, Call.release e.key (some e.connection)) ∈ calls := by
  induction calls with
  | nil => simp [after, hstart] at h
  | cons timed calls ih =>
    obtain ⟨now, call⟩ := timed
    have hmem := (performs call (start.after calls) now).sublist.mem h
    rcases List.mem_append.mp hmem with hmem | hmem
    · exact List.mem_cons_of_mem _ (ih hmem)
    · rcases call with _ | ⟨key, _ | connection⟩ | _
      case release.some =>
        obtain rfl := List.mem_singleton.mp hmem
        exact List.mem_cons_self
      all_goals simp [Call.entry] at hmem

theorem pairwise_after (hstart : start.idle = []) (hclock : (calls.map (·.1)).Pairwise (· ≥ ·)) :
    (start.after calls).idle.Pairwise fun older newer => older.since ≤ newer.since := by
  induction calls with
  | nil => simp [after, hstart]
  | cons timed calls ih =>
    obtain ⟨now, call⟩ := timed
    obtain ⟨hnow, hclock⟩ := List.pairwise_cons.mp hclock
    refine List.Pairwise.sublist (performs call (start.after calls) now).sublist ?_
    have hentry : ∀ e ∈ call.entry now, e.since = now := by
      rcases call with _ | ⟨key, _ | connection⟩ | _ <;> simp [Call.entry]
    have hsingle : (call.entry now).Pairwise fun older newer => older.since ≤ newer.since := by
      rcases call with _ | ⟨key, _ | connection⟩ | _ <;> simp [Call.entry]
    refine List.pairwise_append.mpr ⟨ih hclock, hsingle, fun older holder newer hnewer => ?_⟩
    rw [hentry newer hnewer]
    exact hnow _ (List.mem_map_of_mem (mem_after hstart holder))

theorem length_fresh_le (l : Limits) (now : Int) (stack : List (Idle σ)) :
    (Stacks.fresh l now stack).length ≤ stack.length :=
  List.length_filter_le _ _

theorem length_makeRoom_lt {l : Limits} (hmax : l.maxIdle ≠ 0) (h : stack.length ≤ l.maxIdle) :
    (Stacks.makeRoom l stack).length < l.maxIdle := by
  rw [Stacks.makeRoom]
  split
  · rw [List.length_dropLast]
    omega
  · omega

theorem length_perform_le {l : Limits} {s : Stacks σ} (h : ∀ key, (s key).length ≤ l.maxIdle)
    (now : Int) (call : Call σ) (key : PoolKey) :
    ((Stacks.perform l now s call).2 key).length ≤ l.maxIdle := by
  have hupdate : ∀ key' (stack : List (Idle σ)), stack.length ≤ l.maxIdle →
      (Function.update s key' stack key).length ≤ l.maxIdle := by
    intro key' stack hstack
    rw [Function.update_apply]
    split
    · exact hstack
    · exact h key
  rcases call with key' | ⟨key', _ | connection⟩ | _
  case acquire =>
    refine hupdate key' _ ?_
    rw [List.length_tail]
    exact (Nat.sub_le _ _).trans ((length_fresh_le l now _).trans (h key'))
  case release.none => exact h key
  case release.some =>
    rw [Stacks.perform]
    split
    · exact h key
    · next hmax =>
      exact hupdate key' _ (length_makeRoom_lt hmax ((length_fresh_le l now _).trans (h key')))
  case clear => exact Nat.zero_le _

theorem length_after_le (l : Limits) (calls : Calls σ) (key : PoolKey) :
    (Stacks.after l calls key).length ≤ l.maxIdle := by
  induction calls generalizing key with
  | nil => exact Nat.zero_le _
  | cons timed calls ih => exact length_perform_le ih timed.1 timed.2 key

theorem exists_of_acquire {connection : σ}
    (h : (p.acquire now key).handed = some connection) :
    ∃ e ∈ p.idle, e.key = key ∧ e.connection = connection ∧ now - e.since < p.limits.timeout := by
  have hhanded := congrArg Prod.fst (performs (.acquire key) p now).stacks_eq.2
  obtain ⟨e, hhead, rfl⟩ := Option.map_eq_some_iff.mp (hhanded.symm.trans h)
  have hmem := List.mem_filter.mp (List.mem_of_mem_head? hhead)
  have hstack := List.mem_filter.mp (List.mem_reverse.mp hmem.1)
  exact ⟨e, hstack.1, of_decide_eq_true hstack.2, rfl, of_decide_eq_true hmem.2⟩

theorem idle_of_zero (hstart : start.idle = []) (hmax : start.maxIdle = 0) (calls : Calls σ) :
    (start.after calls).idle = [] := by
  refine List.eq_nil_iff_forall_not_mem.mpr fun e he => ?_
  have hmem : e ∈ (start.after calls).stackOf e.key := by simp [stackOf, he]
  have hlength := length_after_le start.limits calls e.key
  rw [← (after_stacks hstart calls).2.1, limits, hmax] at hlength
  exact absurd (List.length_pos_of_mem hmem) (Nat.not_lt.mpr hlength)

theorem Performs.closed_of_zero (h : Performs p now call t) (hmax : p.maxIdle = 0)
    (hidle : p.idle = []) : t.closed = call.given.toList := by
  have hstale : ∀ key, (p.takeStale now key).1 = [] := by
    intro key
    rw [takeStale_eq, hidle]
    rfl
  cases h with
  | missed h =>
    rw [hstale]
    rfl
  | found h =>
    rw [hstale]
    rfl
  | ignored => rfl
  | refused _ => rfl
  | kept hpositive => exact absurd hmax hpositive
  | cleared =>
    rw [connections, hidle]
    rfl

theorem closed_of_zero (hstart : start.idle = []) (hmax : start.maxIdle = 0) (calls : Calls σ) :
    start.closed calls = released calls := by
  induction calls with
  | nil => rfl
  | cons timed calls ih =>
    obtain ⟨now, call⟩ := timed
    have hidle := idle_of_zero hstart hmax calls
    have hzero : (start.after calls).maxIdle = 0 :=
      (congrArg Limits.maxIdle (after_stacks hstart calls).1).trans hmax
    exact congrArg₂ (· ++ ·) ((performs call _ now).closed_of_zero hzero hidle) ih

/-- Whoever releases a connection holds it: it is not idle, and has not been closed. -/
def Lent (start : Pool σ) : Calls σ → Prop
  | [] => True
  | (_, call) :: calls =>
    (∀ connection ∈ call.given.toList,
      connection ∉ (start.after calls).connections ++ start.closed calls) ∧ Lent start calls

theorem nodup_of_lent (hstart : start.idle = []) (h : Lent start calls) :
    ((start.after calls).connections ++ start.closed calls).Nodup := by
  induction calls with
  | nil => simp [after, connections, hstart, closed, turns]
  | cons timed calls ih =>
    obtain ⟨now, call⟩ := timed
    have hgiven : call.given.toList.Nodup := by cases call.given <;> simp
    -- what is given is neither idle nor closed yet, and the call only moves connections about
    have hbefore : (call.given.toList ++
        ((start.after calls).connections ++ start.closed calls)).Nodup :=
      List.nodup_append'.mpr ⟨hgiven, ih h.2, fun connection hmem => h.1 connection hmem⟩
    have hcall := (performs call (start.after calls) now).perm
    have hperm : (call.given.toList ++
        ((start.after calls).connections ++ start.closed calls)).Perm
          ((call.perform (start.after calls) now).handed.toList ++
            ((call.perform (start.after calls) now).pool.connections ++
              ((call.perform (start.after calls) now).closed ++ start.closed calls))) := by
      rw [← Multiset.coe_eq_coe] at hcall ⊢
      simp only [← Multiset.coe_add] at hcall ⊢
      rw [← add_assoc, hcall]
      abel
    exact (hperm.nodup hbefore).sublist (List.sublist_append_right _ _)

section

variable [DecidableEq σ]

instance decidableLent (start : Pool σ) : ∀ calls : Calls σ, Decidable (Lent start calls)
  | [] => inferInstanceAs (Decidable True)
  | (_, _) :: calls =>
    have := decidableLent start calls
    inferInstanceAs (Decidable (_ ∧ _))

/-- Where a connection is: it is idle, or it has been closed, or it has been handed out as often as
it was released. -/
inductive Fate (start : Pool σ) (calls : Calls σ) (connection : σ) : Prop
  | idle (hidle : connection ∈ (start.after calls).connections)
    (hclosed : connection ∉ start.closed calls)
    (hhanded : (start.handed calls).count connection + 1 = (released calls).count connection)
  | closed (hidle : connection ∉ (start.after calls).connections)
    (hclosed : connection ∈ start.closed calls)
    (hhanded : (start.handed calls).count connection + 1 = (released calls).count connection)
  | handed (hidle : connection ∉ (start.after calls).connections)
    (hclosed : connection ∉ start.closed calls)
    (hhanded : (start.handed calls).count connection = (released calls).count connection)

theorem fate_of_lent (hstart : start.idle = []) (h : Lent start calls) (connection : σ) :
    Fate start calls connection := by
  have hcount := (perm_after hstart calls).count_eq connection
  have hone := List.nodup_iff_count_le_one.mp (nodup_of_lent hstart h) connection
  rw [List.count_append] at hone
  rw [List.count_append, List.count_append] at hcount
  by_cases hidle : connection ∈ (start.after calls).connections
  · have hpos := List.count_pos_iff.mpr hidle
    exact .idle hidle (List.count_eq_zero.mp (by omega)) (by omega)
  · have hzero := List.count_eq_zero.mpr hidle
    by_cases hclosed : connection ∈ start.closed calls
    · have hpos := List.count_pos_iff.mpr hclosed
      exact .closed hidle hclosed (by omega)
    · have hnone := List.count_eq_zero.mpr hclosed
      exact .handed hidle hclosed (by omega)

/-- The pool does what one stack for each key would do. -/
structure ActsAsStacks (l : Limits) (start : Pool σ) (calls : Calls σ) : Prop where
  answers : start.answers calls = Stacks.answers l calls
  stackOf : (start.after calls).stackOf = Stacks.after l calls
  ordered : ∀ key, ((start.after calls).stackOf key).Pairwise fun newer older =>
    older.since ≤ newer.since
  capped : ∀ key, ((start.after calls).stackOf key).length ≤ l.maxIdle
  handed : ∀ now key connection,
    ((start.after calls).acquire now key).handed = some connection →
    ∃ since, (since, .release key (some connection)) ∈ calls ∧ now - since < l.timeout
  apart : ∀ now call key, Call.key? call = some key →
    (call.perform (start.after calls) now).pool.idle.filter (·.key ≠ key) =
      (start.after calls).idle.filter (·.key ≠ key)
  accounted : (released calls).Perm
    (start.handed calls ++ start.closed calls ++ (start.after calls).connections)
  fate : Lent start calls → ∀ connection ∈ released calls, Fate start calls connection
  unused : l.maxIdle = 0 → start.closed calls = released calls

theorem actsAsStacks_of_nil (hstart : start.idle = [])
    (hclock : (calls.map (·.1)).Pairwise (· ≥ ·)) : ActsAsStacks start.limits start calls where
  answers := (after_stacks hstart calls).2.2
  stackOf := (after_stacks hstart calls).2.1
  ordered key := by
    rw [Pool.stackOf, List.pairwise_reverse]
    exact (pairwise_after hstart hclock).filter _
  capped key := by
    rw [(after_stacks hstart calls).2.1]
    exact length_after_le start.limits calls key
  handed now key connection h := by
    obtain ⟨e, he, rfl, rfl, hfresh⟩ := exists_of_acquire h
    rw [(after_stacks hstart calls).1] at hfresh
    exact ⟨e.since, mem_after hstart he, hfresh⟩
  apart now call _ h := (performs call _ now).others h
  accounted := perm_after hstart calls
  fate h connection _ := fate_of_lent hstart h connection
  unused hmax := closed_of_zero hstart hmax calls

theorem ofMillis_of_fits {ms : Int}
    (h : -(Word.half : Int) ≤ ms * 1000000 ∧ ms * 1000000 < Word.half) :
    Clock.ofMillis ms = ms * 1000000 :=
  Int.bmod_eq_of_le h.1 h.2

/-- Where the nanoseconds of the time limit fit in 64 bits and the clock does not go back, the pool
does what one stack for each key would do. -/
theorem actsAsStacks {maxIdle : Nat} {timeoutMs : Int}
    (hfits : -(Word.half : Int) ≤ timeoutMs * 1000000 ∧ timeoutMs * 1000000 < Word.half)
    (hclock : (calls.map (·.1)).Pairwise (· ≥ ·)) :
    ActsAsStacks ⟨maxIdle, timeoutMs * 1000000⟩ (create maxIdle timeoutMs) calls := by
  have hempty : (create maxIdle timeoutMs : Pool σ).idle = [] := rfl
  have hstacks := actsAsStacks_of_nil hempty hclock
  rwa [limits, create, ofMillis_of_fits hfits] at hstacks

/-- Two workers and two hosts share a pool. The worker with three connections to give back loses the
oldest of them, and one that has waited for 20 milliseconds is not handed out any more. -/
def sharedCalls : Calls Nat :=
  let own : PoolKey := ⟨utf8 "h", 1⟩
  let other : PoolKey := ⟨utf8 "h", 2⟩
  let far : PoolKey := ⟨utf8 "g", 1⟩
  [(40000000, .acquire other), (21000000, .acquire own), (21000000, .acquire far),
    (19000000, .acquire own), (4000000, .release own (some 4)), (3000000, .release far (some 3)),
    (2000000, .release other (some 2)), (1000000, .release own (some 1)),
    (0, .release own (some 0))]

theorem actsAsStacks_shared :
    ActsAsStacks ⟨2, 20 * 1000000⟩ (create 2 20) sharedCalls ∧
      (create 2 20).answers sharedCalls =
        [none, none, some 3, some 4, none, none, none, none, none] ∧
      (create 2 20).closed sharedCalls = [2, 1, 0] ∧
      Fate (create 2 20) sharedCalls 3 := by
  have hall : ActsAsStacks ⟨2, 20 * 1000000⟩ (create 2 20) sharedCalls :=
    actsAsStacks (by decide) (by decide)
  exact ⟨hall, by decide, by decide, hall.fate (by decide) 3 (by decide)⟩

/-- The nanoseconds of the time limit that do not fit in 64 bits wrap around, and then nothing is
kept. -/
theorem not_actsAsStacks_of_long_timeout :
    ¬ ActsAsStacks ⟨32, 10000000000000 * 1000000⟩ (create 32 10000000000000 : Pool Nat)
      [(0, .acquire ⟨utf8 "h", 1⟩), (0, .release ⟨utf8 "h", 1⟩ (some 0))] := by
  intro h
  have hpool : (create 32 10000000000000 : Pool Nat).answers
      [(0, .acquire ⟨utf8 "h", 1⟩), (0, .release ⟨utf8 "h", 1⟩ (some 0))] = [none, none] := by
    decide
  have hstack : Stacks.answers ⟨32, 10000000000000 * 1000000⟩
      [(0, .acquire ⟨utf8 "h", 1⟩), (0, .release ⟨utf8 "h", 1⟩ (some 0))] = [some 0, none] := by
    decide
  have heq := hpool.symm.trans (h.answers.trans hstack)
  simp at heq

end

end Pool

end LoadGenerator.Http
