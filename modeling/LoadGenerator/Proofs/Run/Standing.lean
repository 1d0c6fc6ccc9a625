import LoadGenerator.Run.Machine

namespace LoadGenerator.Run

variable {α : Type}

def Event.worker? : Event α → Option Nat
  | .begun i _ _ => some i
  | .paced i _ _ _ => some i
  | .sent i _ _ _ => some i
  | .ended i _ _ _ => some i
  | .published _ _ _ => none

inductive Wait where
  | nothing
  | turn
  | alarm (time : Int)
  deriving DecidableEq

namespace Wait

def alarms : Wait → List Int
  | .alarm time => [time]
  | _ => []

def calls : Wait → Nat
  | .turn => 1
  | _ => 0

def pause (now time : Int) : Wait := if time ≤ now then .turn else .alarm time

end Wait

namespace State

def alarms (s : State α) (a : Actor) : List Int := (s.timers.filter (·.actor = a)).map (·.time)

def calls (s : State α) (a : Actor) : Nat := s.ready.count (.resume a)

def past (s : State α) (i : Nat) : List (Event α) := s.journal.filter (·.worker? = some i)

def deeds (s : State α) : List (Event α) := s.journal.filter (·.worker?.isSome)

def InOrder (s : State α) : Prop := s.timers.Pairwise fun t u => t.time ≤ u.time

inductive Published (e : Edition α) : List (Event α) → Edition α → Prop
  | nothing : Published e [] e
  | next {news : List (Event α)} {e' : Edition α} (h : Published e news e') (time : Int)
      (plan : Plan α) :
      Published e (.published time (e'.version + 1) plan :: news) ⟨plan, e'.version + 1⟩

def Records (s s' : State α) (events : List (Event α)) : Prop :=
  ∃ news, Published s.edition news s'.edition ∧ s'.journal = news ++ events ++ s.journal

/-- Worker `i` stands as `w` and waits for `wait`. -/
structure Standing (s : State α) (i : Nat) (w : Worker α) (wait : Wait) : Prop where
  worker : s.workers[i]? = some w
  alarms : s.alarms (.worker i) = wait.alarms
  calls : s.calls (.worker i) = wait.calls

/-- Apart from news, only what concerns actor `a` is not in `s'` as it is in `s`. -/
structure Only (c : Course α) (a : Actor) (s s' : State α) : Prop where
  now : s'.now = s.now
  count : s'.workers.length = s.workers.length
  listeners : s'.channel.listeners = s.channel.listeners
  worker : ∀ j, a ≠ .worker j → s'.workers[j]? = s.workers[j]?
  alarms : ∀ b, b ≠ a → s'.alarms b = s.alarms b
  calls : ∀ b, b ≠ a → s'.calls b = s.calls b
  inOrder : s.InOrder → s'.InOrder
  wakes : ∀ j, .wake j ∈ s.ready → .wake j ∈ s'.ready
  source : s'.channel.current = s.channel.current ∨
    s'.channel.current ∈ c.setting.news.map (·.2)
  news : s'.edition = s.edition ∨ s.channel.version < s'.channel.version ∧
    (s.channel.listeners ≠ [] → ∀ j < s.workers.length, .wake j ∈ s'.ready)

namespace Only

variable {c : Course α} {a : Actor} {s t u : State α}

theorem of_eq (hn : t.now = s.now) (hw : t.workers = s.workers) (hc : t.channel = s.channel)
    (hr : t.ready = s.ready) (ht : t.timers = s.timers) : Only c a s t where
  now := hn
  count := by rw [hw]
  listeners := by rw [hc]
  worker _ _ := by rw [hw]
  alarms _ _ := by rw [State.alarms, ht, State.alarms]
  calls _ _ := by rw [State.calls, hr, State.calls]
  inOrder h := by rwa [InOrder, ht]
  wakes _ h := by rwa [hr]
  source := .inl (by rw [hc])
  news := .inl (by rw [edition, hc, edition])

theorem refl (s : State α) : Only c a s s := of_eq rfl rfl rfl rfl rfl

theorem trans (h : Only c a s t) (h' : Only c a t u) : Only c a s u where
  now := h'.now.trans h.now
  count := h'.count.trans h.count
  listeners := h'.listeners.trans h.listeners
  worker j hj := (h'.worker j hj).trans (h.worker j hj)
  alarms b hb := (h'.alarms b hb).trans (h.alarms b hb)
  calls b hb := (h'.calls b hb).trans (h.calls b hb)
  inOrder hs := h'.inOrder (h.inOrder hs)
  wakes j hj := h'.wakes j (h.wakes j hj)
  source := by
    rcases h'.source with hs | hs
    · rw [hs]
      exact h.source
    · exact .inr hs
  news := by
    rcases h.news with he | ⟨hlt, hw⟩ <;> rcases h'.news with he' | ⟨hlt', hw'⟩
    · exact .inl (he'.trans he)
    · have hv : t.channel.version = s.channel.version := congrArg Edition.version he
      refine .inr ⟨hv ▸ hlt', fun hl j hj => hw' ?_ j ?_⟩
      · rwa [h.listeners]
      · rwa [h.count]
    · have hv : u.channel.version = t.channel.version := congrArg Edition.version he'
      exact .inr ⟨hv ▸ hlt, fun hl j hj => h'.wakes j (hw hl j hj)⟩
    · exact .inr ⟨Nat.lt_trans hlt hlt', fun hl j hj => h'.wakes j (hw hl j hj)⟩

theorem standing (h : Only c a s t) {j : Nat} (hj : a ≠ .worker j) {w : Worker α} {wait : Wait}
    (hs : Standing s j w wait) : Standing t j w wait where
  worker := (h.worker j hj).trans hs.worker
  alarms := (h.alarms _ hj.symm).trans hs.alarms
  calls := (h.calls _ hj.symm).trans hs.calls

end Only

namespace Published

variable {e e' e'' : Edition α} {news news' : List (Event α)}

theorem trans (h : Published e news e') (h' : Published e' news' e'') :
    Published e (news' ++ news) e'' := by
  induction h' with
  | nothing => exact h
  | next _ time plan ih => exact .next ih time plan

theorem worker?_eq_none (h : Published e news e') : ∀ event ∈ news, event.worker? = none := by
  induction h with
  | nothing => simp
  | next _ time plan ih => exact List.forall_mem_cons.mpr ⟨rfl, ih⟩

end Published

namespace Records

variable {s s' t : State α} {events : List (Event α)}

theorem of_eq (hj : t.journal = events ++ s.journal) (hc : t.channel = s.channel) :
    Records s t events := by
  refine ⟨[], ?_, hj⟩
  rw [edition, edition, hc]
  exact .nothing

theorem trans (h : Records s t events) (h' : Records t s' []) : Records s s' events := by
  obtain ⟨news, hp, hj⟩ := h
  obtain ⟨news', hp', hj'⟩ := h'
  exact ⟨news' ++ news, hp.trans hp', by simp [hj', hj]⟩

theorem after {e : Event α} (h : Records (s.note e) s' events) : Records s s' (events ++ [e]) := by
  obtain ⟨news, hp, hj⟩ := h
  exact ⟨news, hp, by simp [hj, note]⟩

theorem deeds (h : Records s s' events) :
    s'.deeds = events.filter (·.worker?.isSome) ++ s.deeds := by
  obtain ⟨news, hp, hj⟩ := h
  have hnews : news.filter (·.worker?.isSome) = [] := by
    rw [List.filter_eq_nil_iff]
    intro e he
    simp [hp.worker?_eq_none e he]
  rw [State.deeds, hj, List.filter_append, List.filter_append, hnews, List.nil_append, State.deeds]

end Records

theorem records_publish (s : State α) (plan : Plan α) : Records s (s.publish plan) [] :=
  ⟨[.published s.now (s.channel.version + 1) plan], .next .nothing s.now plan, rfl⟩

theorem records_publishAll (s : State α) (plans : List (Plan α)) :
    Records s (s.publishAll plans) [] := by
  induction plans generalizing s with
  | nil => exact .of_eq rfl rfl
  | cons plan plans ih => exact (records_publish s plan).trans (ih _)

/-- Nothing differs that a worker depends on, apart from the dice, the rows and the lines written. -/
structure Aside (s s' : State α) : Prop where
  now : s'.now = s.now
  ready : s'.ready = s.ready
  timers : s'.timers = s.timers
  channel : s'.channel = s.channel
  workers : s'.workers = s.workers
  recorder : s'.recorder = s.recorder
  sent : s'.sent = s.sent
  journal : s'.journal = s.journal

namespace Aside

variable {s t u : State α}

theorem refl (s : State α) : Aside s s := ⟨rfl, rfl, rfl, rfl, rfl, rfl, rfl, rfl⟩

theorem trans (h : Aside s t) (h' : Aside t u) : Aside s u :=
  ⟨h'.now.trans h.now, h'.ready.trans h.ready, h'.timers.trans h.timers,
    h'.channel.trans h.channel, h'.workers.trans h.workers, h'.recorder.trans h.recorder,
    h'.sent.trans h.sent, h'.journal.trans h.journal⟩

theorem only (h : Aside s t) (c : Course α) (a : Actor) : Only c a s t :=
  .of_eq h.now h.workers h.channel h.ready h.timers

theorem standing (h : Aside s t) {i : Nat} {w : Worker α} {wait : Wait}
    (hs : Standing s i w wait) : Standing t i w wait where
  worker := by rw [h.workers, hs.worker]
  alarms := by rw [alarms, h.timers, ← hs.alarms, alarms]
  calls := by rw [calls, h.ready, ← hs.calls, calls]

theorem say (s : State α) (notices : List Notice) : Aside s (s.say notices) :=
  ⟨rfl, rfl, rfl, rfl, rfl, rfl, rfl, rfl⟩

theorem draw (s : State α) (c : Course α) : Aside s (s.draw c).2 :=
  ⟨rfl, rfl, rfl, rfl, rfl, rfl, rfl, rfl⟩

theorem deal (s : State α) (key : Nat × Nat) (table : Option Table) :
    Aside s (s.deal key table).2 := by
  cases table with
  | none => exact refl s
  | some t => exact ⟨rfl, rfl, rfl, rfl, rfl, rfl, rfl, rfl⟩

end Aside

theorem filter_insert_of_not {p : Timer → Bool} {t : Timer} (h : p t = false) (ts : List Timer) :
    (Timer.insert t ts).filter p = ts.filter p := by
  induction ts with
  | nil => simp [Timer.insert, h]
  | cons u ts ih =>
    rw [Timer.insert]
    split
    · rw [List.filter_cons, ih, List.filter_cons]
    · simp [h]

theorem filter_insert_of_nil {p : Timer → Bool} {t : Timer} (h : p t = true) {ts : List Timer}
    (hts : ts.filter p = []) : (Timer.insert t ts).filter p = [t] := by
  induction ts with
  | nil => simp [Timer.insert, h]
  | cons u ts ih =>
    have hu : p u = false := Bool.eq_false_iff.mpr fun hu => by simp [hu] at hts
    rw [List.filter_cons_of_neg (by simp [hu])] at hts
    rw [Timer.insert]
    split
    · rw [List.filter_cons_of_neg (by simp [hu]), ih hts]
    · rw [List.filter_cons_of_pos h, List.filter_cons_of_neg (by simp [hu]), hts]

theorem mem_insert {t u : Timer} {ts : List Timer} :
    u ∈ Timer.insert t ts ↔ u = t ∨ u ∈ ts := by
  induction ts with
  | nil => simp [Timer.insert]
  | cons v ts ih =>
    rw [Timer.insert]
    split
    · simp only [List.mem_cons, ih]
      exact or_left_comm
    · simp

theorem pairwise_insert (t : Timer) {ts : List Timer}
    (h : ts.Pairwise fun t u => t.time ≤ u.time) :
    (Timer.insert t ts).Pairwise fun t u => t.time ≤ u.time := by
  induction ts with
  | nil => simp [Timer.insert]
  | cons v ts ih =>
    obtain ⟨hv, hts⟩ := List.pairwise_cons.mp h
    rw [Timer.insert]
    split
    · next hvt =>
      refine List.pairwise_cons.mpr ⟨fun u hu => ?_, ih hts⟩
      rcases mem_insert.mp hu with rfl | hu
      · exact hvt
      · exact hv u hu
    · next hvt =>
      refine List.pairwise_cons.mpr ⟨fun u hu => ?_, h⟩
      rcases List.mem_cons.mp hu with rfl | hu
      · omega
      · have := hv u hu
        omega

section Operations

variable {c : Course α} {s : State α} {i : Nat} {w : Worker α} {wait : Wait}

theorem only_say (a : Actor) (notices : List Notice) : Only c a s (s.say notices) :=
  .of_eq rfl rfl rfl rfl rfl

theorem only_note (a : Actor) (e : Event α) : Only c a s (s.note e) := .of_eq rfl rfl rfl rfl rfl

theorem only_setWorker (w : Worker α) : Only c (.worker i) s (s.setWorker i w) where
  now := rfl
  count := by simp [setWorker]
  listeners := rfl
  worker j hj := List.getElem?_set_ne fun h => hj (congrArg Actor.worker h)
  alarms _ _ := rfl
  calls _ _ := rfl
  inOrder h := h
  wakes _ h := h
  source := .inl rfl
  news := .inl rfl

theorem Standing.setWorker (h : Standing s i w wait) (w' : Worker α) :
    Standing (s.setWorker i w') i w' wait where
  worker := by
    obtain ⟨hi, -⟩ := List.getElem?_eq_some_iff.mp h.worker
    simp [State.setWorker, hi]
  alarms := h.alarms
  calls := h.calls

theorem only_post (a : Actor) : Only c a s (s.post (.resume a)) where
  now := rfl
  count := rfl
  listeners := rfl
  worker _ _ := rfl
  alarms _ _ := rfl
  calls b hb := by simp [State.calls, post, List.count_append, hb.symm]
  inOrder h := h
  wakes _ h := List.mem_append_left _ h
  source := .inl rfl
  news := .inl rfl

theorem Standing.post (h : Standing s i w .nothing) :
    Standing (s.post (.resume (.worker i))) i w .turn where
  worker := h.worker
  alarms := h.alarms
  calls := by
    have hc := h.calls
    rw [State.calls] at hc
    simp [State.calls, State.post, List.count_append, hc, Wait.calls]

theorem only_hurry (a : Actor) : Only c a s (s.hurry (.resume a)) where
  now := rfl
  count := rfl
  listeners := rfl
  worker _ _ := rfl
  alarms _ _ := rfl
  calls b hb := by simp [State.calls, hurry, hb.symm]
  inOrder h := h
  wakes _ h := List.mem_cons_of_mem _ h
  source := .inl rfl
  news := .inl rfl

theorem Standing.hurry (h : Standing s i w .nothing) :
    Standing (s.hurry (.resume (.worker i))) i w .turn where
  worker := h.worker
  alarms := h.alarms
  calls := by
    have hc := h.calls
    rw [State.calls] at hc
    simp [State.calls, State.hurry, hc, Wait.calls]

theorem only_arm (time : Int) (a : Actor) : Only c a s (s.arm time a) where
  now := rfl
  count := rfl
  listeners := rfl
  worker _ _ := rfl
  alarms b hb := by
    rw [State.alarms, arm, filter_insert_of_not (by simp [hb.symm]), State.alarms]
  calls _ _ := rfl
  inOrder h := pairwise_insert _ h
  wakes _ h := h
  source := .inl rfl
  news := .inl rfl

theorem Standing.arm (h : Standing s i w .nothing) (time : Int) :
    Standing (s.arm time (.worker i)) i w (.alarm time) where
  worker := h.worker
  alarms := by
    have ha : (s.timers.filter (·.actor = .worker i)).map (·.time) = [] := h.alarms
    rw [List.map_eq_nil_iff] at ha
    rw [State.alarms, State.arm, filter_insert_of_nil (by simp) ha]
    rfl
  calls := h.calls

theorem only_publish (a : Actor) {plan : Plan α} (h : plan ∈ c.setting.news.map (·.2)) :
    Only c a s (s.publish plan) where
  now := rfl
  count := rfl
  listeners := rfl
  worker _ _ := rfl
  alarms _ _ := rfl
  calls b _ := by
    simp only [State.calls, publish, State.note, List.count_append, Nat.add_eq_left,
      List.count_eq_zero, List.mem_flatMap, List.mem_map]
    rintro ⟨_, _, _, _, h⟩
    cases h
  inOrder h := h
  wakes _ h := List.mem_append_left _ h
  source := .inr h
  news := by
    refine .inr ⟨Nat.lt_succ_self _, fun hl j hj => List.mem_append_right _ ?_⟩
    obtain ⟨l, ls, hls⟩ := List.exists_cons_of_ne_nil hl
    simp only [hls, List.map_cons, List.flatMap_cons]
    exact List.mem_append_left _ (List.mem_map_of_mem (List.mem_range.mpr hj))

theorem only_publishAll (a : Actor) {plans : List (Plan α)}
    (h : ∀ plan ∈ plans, plan ∈ c.setting.news.map (·.2)) : Only c a s (s.publishAll plans) := by
  induction plans generalizing s with
  | nil => exact .refl s
  | cons plan plans ih =>
    obtain ⟨hp, hps⟩ := List.forall_mem_cons.mp h
    exact (only_publish a hp).trans (ih hps)

theorem mem_newsAt {m : Moment} {plan : Plan α} (h : plan ∈ c.setting.newsAt m) :
    plan ∈ c.setting.news.map (·.2) := by
  simp only [Setting.newsAt, List.mem_filterMap] at h
  obtain ⟨⟨n, p⟩, hmem, hif⟩ := h
  split at hif
  · cases hif
    exact List.mem_map_of_mem hmem
  · cases hif

theorem only_cancel (a : Actor) : Only c a s (s.cancel a) := by
  rw [cancel]
  split
  · refine Only.trans (t := { s with timers := s.timers.filter (·.actor ≠ a) }) ?_ (only_post a)
    refine { Only.refl s with alarms := fun b hb => ?_, inOrder := fun h => h.filter _ }
    simp only [State.alarms, List.filter_filter]
    congr 1
    apply List.filter_congr
    intro t _
    by_cases ht : t.actor = b <;> simp [ht, hb]
  · exact .refl s

theorem Standing.cancel {time : Int} (h : Standing s i w (.alarm time)) :
    Standing (s.cancel (.worker i)) i w .turn := by
  have ha : (s.timers.filter (·.actor = .worker i)).map (·.time) = [time] := h.alarms
  have hany : s.timers.any (·.actor = .worker i) = true := by
    have hmem : time ∈ (s.timers.filter (·.actor = .worker i)).map (·.time) := by simp [ha]
    obtain ⟨t, ht, -⟩ := List.mem_map.mp hmem
    exact List.any_eq_true.mpr ⟨t, List.mem_filter.mp ht⟩
  rw [State.cancel, if_pos hany]
  refine Standing.post ⟨h.worker, ?_, h.calls⟩
  simp [State.alarms, List.filter_filter, Wait.alarms]

theorem cancel_eq_self (h : Standing s i w wait) (hw : wait.alarms = []) :
    s.cancel (.worker i) = s := by
  have ha : (s.timers.filter (·.actor = .worker i)).map (·.time) = [] := h.alarms.trans hw
  rw [List.map_eq_nil_iff, List.filter_eq_nil_iff] at ha
  rw [State.cancel, if_neg]
  simpa using ha

end Operations

end State

end LoadGenerator.Run
