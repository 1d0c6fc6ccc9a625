import LoadGenerator.Plan.Channel
import Mathlib.Data.List.Nodup

namespace LoadGenerator.Channel

variable {π lam : Type}

inductive Event (π lam : Type) where
  | subscribed (id : Nat) (listener : lam)
  | unsubscribed (id : Nat)
  | published (plan : π)
  | called (id : Nat) (a : Announcement π lam)
  | finished

/-- A channel, and while a plan is being published those who are still to be called. -/
structure Broadcast (π lam : Type) where
  channel : Channel π lam
  due : Option (List (Nat × Announcement π lam))

def Broadcast.left (b : Broadcast π lam) : List (Nat × Announcement π lam) := b.due.getD []

def calls (c : Channel π lam) (plan : π) : List (Nat × Announcement π lam) :=
  (c.listeners.map (·.1)).zip (c.publish plan).2

/-- What comes of what has happened, the newest first. One publish goes on at a time, and each of
its listeners runs until it returns; subscriptions begin and end at any time, whether a listener is
running or not. -/
inductive Comes (first : π) : List (Event π lam) → Broadcast π lam → Prop
  | start : Comes first [] ⟨.ofPlan first, none⟩
  | subscribe {past : List (Event π lam)} {b : Broadcast π lam} (h : Comes first past b)
      (listener : lam) :
      Comes first (.subscribed (b.channel.subscribe listener).2 listener :: past)
        { b with channel := (b.channel.subscribe listener).1 }
  | unsubscribe {past : List (Event π lam)} {b : Broadcast π lam} (h : Comes first past b)
      (id : Nat) :
      Comes first (.unsubscribed id :: past) { b with channel := b.channel.unsubscribe id }
  | publish {past : List (Event π lam)} {b : Broadcast π lam} (h : Comes first past b)
      (hb : b.due = none) (plan : π) :
      Comes first (.published plan :: past)
        ⟨(b.channel.publish plan).1, some (b.channel.calls plan)⟩
  | call {past : List (Event π lam)} {b : Broadcast π lam} {id : Nat} {a : Announcement π lam}
      {rest : List (Nat × Announcement π lam)} (h : Comes first past b)
      (hb : b.due = some ((id, a) :: rest)) :
      Comes first (.called id a :: past) { b with due := some rest }
  | finish {past : List (Event π lam)} {b : Broadcast π lam} (h : Comes first past b)
      (hb : b.due = some []) : Comes first (.finished :: past) { b with due := none }

def plans : List (Event π lam) → List π
  | [] => []
  | .published plan :: past => plan :: plans past
  | .subscribed _ _ :: past => plans past
  | .unsubscribed _ :: past => plans past
  | .called _ _ :: past => plans past
  | .finished :: past => plans past

def numbers : List (Event π lam) → List Nat
  | [] => []
  | .subscribed id _ :: past => id :: numbers past
  | .unsubscribed _ :: past => numbers past
  | .published _ :: past => numbers past
  | .called _ _ :: past => numbers past
  | .finished :: past => numbers past

def IsSubscribed (id : Nat) : List (Event π lam) → Prop
  | [] => False
  | .subscribed i _ :: past => i = id ∨ IsSubscribed id past
  | .unsubscribed i :: past => i ≠ id ∧ IsSubscribed id past
  | .published _ :: past => IsSubscribed id past
  | .called _ _ :: past => IsSubscribed id past
  | .finished :: past => IsSubscribed id past

instance decidableIsSubscribed (id : Nat) : (past : List (Event π lam)) →
    Decidable (IsSubscribed id past)
  | [] => .isFalse not_false
  | .subscribed i _ :: past =>
    have := decidableIsSubscribed id past
    inferInstanceAs (Decidable (i = id ∨ IsSubscribed id past))
  | .unsubscribed i :: past =>
    have := decidableIsSubscribed id past
    inferInstanceAs (Decidable (i ≠ id ∧ IsSubscribed id past))
  | .published _ :: past => decidableIsSubscribed id past
  | .called _ _ :: past => decidableIsSubscribed id past
  | .finished :: past => decidableIsSubscribed id past

/-- The publishes that began while a listener was subscribed, with the versions that they made, the
newest first. -/
def owed (id : Nat) : List (Event π lam) → List (π × Nat)
  | [] => []
  | .published plan :: past =>
    if IsSubscribed id past then (plan, 2 + (plans past).length) :: owed id past
    else owed id past
  | .subscribed _ _ :: past => owed id past
  | .unsubscribed _ :: past => owed id past
  | .called _ _ :: past => owed id past
  | .finished :: past => owed id past

/-- What a listener was called with, the newest first. -/
def heard (id : Nat) : List (Event π lam) → List (π × Nat)
  | [] => []
  | .called i a :: past =>
    if i = id then (a.plan, a.version) :: heard id past else heard id past
  | .subscribed _ _ :: past => heard id past
  | .unsubscribed _ :: past => heard id past
  | .published _ :: past => heard id past
  | .finished :: past => heard id past

def running? : List (Event π lam) → Option (Nat × Announcement π lam)
  | [] => none
  | .called id a :: _ => some (id, a)
  | .published _ :: _ => none
  | .finished :: _ => none
  | .subscribed _ _ :: past => running? past
  | .unsubscribed _ :: past => running? past

def pending (id : Nat) (left : List (Nat × Announcement π lam)) : List (π × Nat) :=
  left.filterMap fun (i, a) => if i = id then some (a.plan, a.version) else none

variable {first plan : π} {past : List (Event π lam)} {b : Broadcast π lam} {id : Nat}
  {listener : lam} {a : Announcement π lam}

structure Holds (past : List (Event π lam)) (c : Channel π lam) : Prop where
  given : ∀ id ∈ numbers past, id < c.nextId
  distinct : (numbers past).Nodup
  once : (c.listeners.map (·.1)).Nodup
  listeners : ∀ id listener, (id, listener) ∈ c.listeners ↔
    IsSubscribed id past ∧ .subscribed id listener ∈ past

theorem mem_numbers (h : .subscribed id listener ∈ past) : id ∈ numbers past := by
  induction past with
  | nil => cases h
  | cons e past ih =>
    rcases List.mem_cons.mp h with rfl | hrest
    · exact List.mem_cons_self
    · cases e with
      | subscribed i l => exact List.mem_cons_of_mem _ (ih hrest)
      | _ => exact ih hrest

theorem exists_of_isSubscribed (h : IsSubscribed id past) :
    ∃ listener, .subscribed id listener ∈ past := by
  induction past with
  | nil => exact h.elim
  | cons e past ih =>
    have hrest (h : IsSubscribed id past) : ∃ listener, .subscribed id listener ∈ e :: past :=
      (ih h).imp fun _ => List.mem_cons_of_mem e
    cases e with
    | subscribed i l =>
      rcases h with rfl | h
      · exact ⟨l, List.mem_cons_self⟩
      · exact hrest h
    | unsubscribed i => exact hrest h.2
    | published plan => exact hrest h
    | called i a => exact hrest h
    | finished => exact hrest h

namespace Holds

variable {c : Channel π lam}

theorem mem_map_iff (h : Holds past c) : id ∈ c.listeners.map (·.1) ↔ IsSubscribed id past := by
  constructor
  · intro hmem
    obtain ⟨⟨i, l⟩, hl, rfl⟩ := List.mem_map.mp hmem
    exact ((h.listeners i l).mp hl).1
  · intro hs
    obtain ⟨l, hl⟩ := exists_of_isSubscribed hs
    exact List.mem_map.mpr ⟨(id, l), (h.listeners id l).mpr ⟨hs, hl⟩, rfl⟩

theorem subscribe (h : Holds past c) (listener : lam) :
    Holds (.subscribed (c.subscribe listener).2 listener :: past) (c.subscribe listener).1 := by
  have hnew : c.nextId ∉ numbers past := fun hmem => Nat.lt_irrefl _ (h.given _ hmem)
  constructor
  case given =>
    intro i hi
    rcases List.mem_cons.mp hi with rfl | hi
    · exact Nat.lt_succ_self _
    · exact Nat.lt_succ_of_lt (h.given i hi)
  case distinct => exact List.nodup_cons.mpr ⟨hnew, h.distinct⟩
  case once =>
    have hnot : c.nextId ∉ c.listeners.map (·.1) := fun hmem => by
      obtain ⟨l, hl⟩ := exists_of_isSubscribed (h.mem_map_iff.mp hmem)
      exact hnew (mem_numbers hl)
    simp only [Channel.subscribe, List.map_append, List.map_cons, List.map_nil]
    exact List.nodup_append'.mpr ⟨h.once, List.nodup_singleton _, List.disjoint_singleton.mpr hnot⟩
  case listeners =>
    intro i l
    simp only [Channel.subscribe, List.mem_append, h.listeners, List.mem_cons, List.not_mem_nil,
      or_false, Prod.mk.injEq, IsSubscribed, Event.subscribed.injEq]
    constructor
    · rintro (⟨hs, hl⟩ | ⟨rfl, rfl⟩)
      · exact ⟨.inr hs, .inr hl⟩
      · exact ⟨.inl rfl, .inl ⟨rfl, rfl⟩⟩
    · rintro ⟨hs, (⟨rfl, rfl⟩ | hl)⟩
      · exact .inr ⟨rfl, rfl⟩
      · -- the new number does not stand in the past
        have hne : c.nextId ≠ i := fun heq => hnew (heq ▸ mem_numbers hl)
        exact .inl ⟨hs.resolve_left hne, hl⟩

theorem unsubscribe (h : Holds past c) (id : Nat) :
    Holds (.unsubscribed id :: past) (c.unsubscribe id) where
  given := h.given
  distinct := h.distinct
  once := h.once.sublist (List.filter_sublist.map _)
  listeners i l := by
    simp only [Channel.unsubscribe, List.mem_filter, h.listeners, decide_eq_true_eq, IsSubscribed,
      List.mem_cons, reduceCtorEq, false_or]
    constructor
    · rintro ⟨⟨hs, hl⟩, hne⟩
      exact ⟨⟨hne.symm, hs⟩, hl⟩
    · rintro ⟨⟨hne, hs⟩, hl⟩
      exact ⟨⟨hs, hl⟩, hne.symm⟩

theorem of_same {e : Event π lam} {c' : Channel π lam} (h : Holds past c)
    (hl : c'.listeners = c.listeners) (hn : c'.nextId = c.nextId)
    (he : ∀ id listener, e ≠ .subscribed id listener)
    (hs : ∀ id, IsSubscribed id (e :: past) ↔ IsSubscribed id past)
    (hnumbers : numbers (e :: past) = numbers past) : Holds (e :: past) c' where
  given := by rw [hn, hnumbers]; exact h.given
  distinct := hnumbers ▸ h.distinct
  once := hl ▸ h.once
  listeners i l := by simp [hl, h.listeners, hs, (he i l).symm]

theorem unsubscribe_eq (h : Holds past c) (hs : ¬IsSubscribed id past) : c.unsubscribe id = c := by
  rw [Channel.unsubscribe, List.filter_eq_self.mpr]
  intro entry hmem
  refine decide_eq_true ?_
  rintro rfl
  exact hs ((h.listeners entry.1 entry.2).mp hmem).1

end Holds

theorem calls_eq (c : Channel π lam) (plan : π) :
    c.calls plan = c.listeners.map fun (i, l) => (i, ⟨l, plan, c.version + 1⟩) := by
  rw [calls, publish, List.zip_map']

theorem pending_cons_self (id : Nat) (a : Announcement π lam)
    (left : List (Nat × Announcement π lam)) :
    pending id ((id, a) :: left) = (a.plan, a.version) :: pending id left := by
  simp [pending]

theorem pending_cons_of_ne {i : Nat} (h : i ≠ id) (a : Announcement π lam)
    (left : List (Nat × Announcement π lam)) : pending id ((i, a) :: left) = pending id left := by
  simp [pending, h]

theorem pending_eq_nil {left : List (Nat × Announcement π lam)} (h : id ∉ left.map (·.1)) :
    pending id left = [] := by
  refine List.filterMap_eq_nil_iff.mpr fun ⟨i, a⟩ hmem => if_neg ?_
  rintro rfl
  exact h (List.mem_map.mpr ⟨(i, a), hmem, rfl⟩)

theorem map_fst_calls (c : Channel π lam) (plan : π) :
    (c.calls plan).map (·.1) = c.listeners.map (·.1) := by
  rw [calls_eq, List.map_map]
  rfl

theorem pending_of_mem {left : List (Nat × Announcement π lam)} (h : (left.map (·.1)).Nodup)
    (hmem : (id, a) ∈ left) : pending id left = [(a.plan, a.version)] := by
  induction left with
  | nil => cases hmem
  | cons p left ih =>
    obtain ⟨i, a'⟩ := p
    obtain ⟨hnot, hrest⟩ := List.nodup_cons.mp h
    rcases List.mem_cons.mp hmem with heq | htail
    · obtain ⟨rfl, rfl⟩ := Prod.mk.inj heq
      rw [pending_cons_self, pending_eq_nil hnot]
    · have hne : i ≠ id := by
        rintro rfl
        exact hnot (List.mem_map.mpr ⟨_, htail, rfl⟩)
      rw [pending_cons_of_ne hne, ih hrest htail]

theorem pending_calls {c : Channel π lam} (h : Holds past c) (plan : π) (id : Nat) :
    pending id (c.calls plan) = if IsSubscribed id past then [(plan, c.version + 1)] else [] := by
  have hcalls := map_fst_calls c plan
  split
  · next hs =>
    obtain ⟨l, hl⟩ := exists_of_isSubscribed hs
    have hmem : (id, ⟨l, plan, c.version + 1⟩) ∈ c.calls plan :=
      calls_eq c plan ▸ List.mem_map_of_mem ((h.listeners id l).mpr ⟨hs, hl⟩)
    exact pending_of_mem (hcalls ▸ h.once) hmem
  · next hs => exact pending_eq_nil (hcalls ▸ h.mem_map_iff.not.mpr hs)

/-- A channel has told its listeners what they were to be told, but for what is left. -/
structure Delivers (first : π) (past : List (Event π lam)) (b : Broadcast π lam) : Prop where
  version : b.channel.version = 1 + (plans past).length
  current : b.channel.current = (plans past).headD first
  holds : Holds past b.channel
  left : ∀ id a, (id, a) ∈ b.left → a.plan = b.channel.current ∧
    a.version = b.channel.version ∧ .subscribed id a.listener ∈ past
  owed : ∀ id, owed id past = pending id b.left ++ heard id past
  once : (b.left.map (·.1)).Nodup
  called : ∀ id a, .called id a ∈ past → .subscribed id a.listener ∈ past
  reads : ∀ id a, running? past = some (id, a) →
    a.plan = b.channel.current ∧ a.version = b.channel.version

namespace Delivers

theorem start (first : π) : Delivers first ([] : List (Event π lam)) ⟨.ofPlan first, none⟩ where
  version := rfl
  current := rfl
  holds := ⟨by simp [numbers], by simp [numbers], by simp [ofPlan], by simp [ofPlan]⟩
  left := by simp [Broadcast.left]
  owed _ := rfl
  once := by simp [Broadcast.left]
  called := by simp
  reads := by simp [running?]

theorem subscribe (h : Delivers first past b) (listener : lam) :
    Delivers first (.subscribed (b.channel.subscribe listener).2 listener :: past)
      { b with channel := (b.channel.subscribe listener).1 } where
  version := h.version
  current := h.current
  holds := h.holds.subscribe listener
  left id a hmem := by
    obtain ⟨hp, hv, hs⟩ := h.left id a hmem
    exact ⟨hp, hv, List.mem_cons_of_mem _ hs⟩
  owed := h.owed
  once := h.once
  called id a hmem := List.mem_cons_of_mem _ (h.called id a (by simpa using hmem))
  reads := h.reads

theorem unsubscribe (h : Delivers first past b) (id : Nat) :
    Delivers first (.unsubscribed id :: past) { b with channel := b.channel.unsubscribe id } where
  version := h.version
  current := h.current
  holds := h.holds.unsubscribe id
  left id a hmem := by
    obtain ⟨hp, hv, hs⟩ := h.left id a hmem
    exact ⟨hp, hv, List.mem_cons_of_mem _ hs⟩
  owed := h.owed
  once := h.once
  called id a hmem := List.mem_cons_of_mem _ (h.called id a (by simpa using hmem))
  reads := h.reads

theorem publish (h : Delivers first past b) (hb : b.due = none) (plan : π) :
    Delivers first (.published plan :: past)
      ⟨(b.channel.publish plan).1, some (b.channel.calls plan)⟩ where
  version := by
    show b.channel.version + 1 = 1 + ((plans past).length + 1)
    rw [h.version, Nat.add_assoc]
  current := rfl
  holds := h.holds.of_same rfl rfl nofun (fun _ => Iff.rfl) rfl
  left id a hmem := by
    rw [Broadcast.left, Option.getD_some, calls_eq] at hmem
    obtain ⟨⟨i, l⟩, hl, heq⟩ := List.mem_map.mp hmem
    obtain ⟨rfl, rfl⟩ := Prod.mk.inj heq
    exact ⟨rfl, rfl, List.mem_cons_of_mem _ ((h.holds.listeners i l).mp hl).2⟩
  owed id := by
    have howed := h.owed id
    rw [Broadcast.left, hb] at howed
    have hversion : b.channel.version + 1 = 2 + (plans past).length := by rw [h.version]; omega
    rw [Broadcast.left, Option.getD_some, pending_calls h.holds, Channel.owed, howed, hversion]
    split <;> rfl
  once := by
    rw [Broadcast.left, Option.getD_some, map_fst_calls]
    exact h.holds.once
  called id a hmem := List.mem_cons_of_mem _ (h.called id a (by simpa using hmem))
  reads := nofun

theorem call {rest : List (Nat × Announcement π lam)} (h : Delivers first past b)
    (hb : b.due = some ((id, a) :: rest)) :
    Delivers first (.called id a :: past) { b with due := some rest } := by
  have hleft : b.left = (id, a) :: rest := by rw [Broadcast.left, hb]; rfl
  obtain ⟨hplan, hversion, hsub⟩ := h.left id a (hleft ▸ List.mem_cons_self)
  have honce := h.once
  rw [hleft, List.map_cons] at honce
  obtain ⟨hnot, hrest⟩ := List.nodup_cons.mp honce
  constructor
  case version => exact h.version
  case current => exact h.current
  case holds => exact h.holds.of_same rfl rfl nofun (fun _ => Iff.rfl) rfl
  case left =>
    intro i a' hmem
    obtain ⟨hp, hv, hs⟩ := h.left i a' (hleft ▸ List.mem_cons_of_mem _ hmem)
    exact ⟨hp, hv, List.mem_cons_of_mem _ hs⟩
  case owed =>
    intro i
    have howed := h.owed i
    rw [hleft] at howed
    show Channel.owed i past = pending i rest ++ Channel.heard i (.called id a :: past)
    rw [howed, Channel.heard]
    by_cases hi : id = i
    · -- the call was the only one that was left for this listener
      subst hi
      rw [pending_cons_self, pending_eq_nil hnot, if_pos rfl]
      rfl
    · rw [pending_cons_of_ne hi, if_neg hi]
  case once => exact hrest
  case called =>
    intro i a' hmem
    rcases List.mem_cons.mp hmem with heq | hmem
    · obtain ⟨rfl, rfl⟩ := Event.called.inj heq
      exact List.mem_cons_of_mem _ hsub
    · exact List.mem_cons_of_mem _ (h.called i a' hmem)
  case reads =>
    intro i a' hrun
    obtain ⟨rfl, rfl⟩ := Prod.mk.inj (Option.some.inj hrun)
    exact ⟨hplan, hversion⟩

theorem finish (h : Delivers first past b) (hb : b.due = some []) :
    Delivers first (.finished :: past) { b with due := none } := by
  have hleft : b.left = [] := by rw [Broadcast.left, hb]; rfl
  constructor
  case version => exact h.version
  case current => exact h.current
  case holds => exact h.holds.of_same rfl rfl nofun (fun _ => Iff.rfl) rfl
  case left => exact nofun
  case owed =>
    intro id
    have howed := h.owed id
    rw [hleft] at howed
    exact howed
  case once => exact List.nodup_nil
  case called => exact fun id a hmem => List.mem_cons_of_mem _ (h.called id a (by simpa using hmem))
  case reads => exact nofun

theorem pending (h : Delivers first past b) (id : Nat) :
    pending id b.left = [] ∨
      b.due ≠ none ∧ pending id b.left = [(b.channel.current, b.channel.version)] := by
  by_cases hmem : id ∈ b.left.map (·.1)
  · obtain ⟨⟨i, a⟩, ha, rfl⟩ := List.mem_map.mp hmem
    obtain ⟨hplan, hversion, -⟩ := h.left i a ha
    have hdue : b.due ≠ none := fun hnone => by simp [Broadcast.left, hnone] at ha
    exact .inr ⟨hdue, by rw [pending_of_mem h.once ha, hplan, hversion]⟩
  · exact .inl (pending_eq_nil hmem)

end Delivers

theorem Comes.delivers (h : Comes first past b) : Delivers first past b := by
  induction h with
  | start => exact .start first
  | subscribe h listener ih => exact ih.subscribe listener
  | unsubscribe h id ih => exact ih.unsubscribe id
  | publish h hb plan ih => exact ih.publish hb plan
  | call h hb ih => exact ih.call hb
  | finish h hb ih => exact ih.finish hb

structure Serves (first : π) (past : List (Event π lam)) (b : Broadcast π lam) : Prop where
  version : b.channel.version = 1 + (plans past).length
  current : b.channel.current = (plans past).headD first
  /-- A listener has heard of all that it should hear of, each once and in order, except that it may
  still have to hear of the publish that is going on. -/
  once : ∀ id, ∃ left, owed id past = left ++ heard id past ∧
    (left = [] ∨ b.due ≠ none ∧ left = [(b.channel.current, b.channel.version)])
  named : ∀ id a, .called id a ∈ past → .subscribed id a.listener ∈ past
  reads : ∀ id a, running? past = some (id, a) →
    a.plan = b.channel.current ∧ a.version = b.channel.version
  distinct : (numbers past).Nodup
  others : ∀ id i listener, i ≠ id →
    ((i, listener) ∈ (b.channel.unsubscribe id).listeners ↔ (i, listener) ∈ b.channel.listeners)
  unknown : ∀ id, ¬IsSubscribed id past → b.channel.unsubscribe id = b.channel

/-- Whatever the order in which listeners come, go and run, each hears once of every publish that
began while it was subscribed. This is about listeners that return: one that fails takes the publish
with it, and those after it hear nothing. -/
theorem Comes.serves (h : Comes first past b) : Serves first past b where
  version := h.delivers.version
  current := h.delivers.current
  once id := ⟨_, h.delivers.owed id, h.delivers.pending id⟩
  named := h.delivers.called
  reads := h.delivers.reads
  distinct := h.delivers.holds.distinct
  others id i listener hne := by simp [Channel.unsubscribe, hne]
  unknown id hs := h.delivers.holds.unsubscribe_eq hs

theorem serves_second_listener :
    let past : List (Event Nat Char) :=
      [.finished, .called 2 ⟨'b', 40, 4⟩, .published 40, .unsubscribed 1, .finished,
        .called 2 ⟨'b', 30, 3⟩, .called 1 ⟨'a', 30, 3⟩, .published 30, .finished,
        .subscribed 2 'b', .called 1 ⟨'a', 20, 2⟩, .published 20, .subscribed 1 'a']
    let b : Broadcast Nat Char := ⟨⟨40, 4, [(2, 'b')], 3⟩, none⟩
    Comes 10 past b ∧ Serves 10 past b ∧ heard 1 past = [(30, 3), (20, 2)] ∧
      heard 2 past = [(40, 4), (30, 3)] := by
  intro past b
  have hstart : Comes 10 ([] : List (Event Nat Char)) _ := .start
  have hfirst := ((((hstart.subscribe 'a').publish rfl 20).call rfl).subscribe 'b').finish rfl
  have hsecond := (((hfirst.publish rfl 30).call rfl).call rfl).finish rfl
  have h : Comes 10 past b := (((hsecond.unsubscribe 1).publish rfl 40).call rfl).finish rfl
  exact ⟨h, h.serves, by decide, by decide⟩

end LoadGenerator.Channel
