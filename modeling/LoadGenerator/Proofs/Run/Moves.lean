import LoadGenerator.Proofs.Run.Standing

namespace LoadGenerator.Run

open Metrics

variable {α : Type}

def Event.isSent : Event α → Bool
  | .sent _ _ _ _ => true
  | _ => false

def Job.nextFire (job : Job α) (due now : Int) : Int :=
  if job.delayMs = 0 then now else max (due + job.delayMs * Clock.perMilli) now

def Worker.isOver (w : Worker α) : Bool :=
  match w.phase with
  | .finished => true
  | .stopped => true
  | _ => false

def Worker.isStopped (w : Worker α) : Bool :=
  match w.phase with
  | .stopped => true
  | _ => false

theorem Worker.isOver_eq (w : Worker α) : w.isOver = (w.isFinished || w.isStopped) := by
  rw [isOver, isFinished, isStopped]
  cases w.phase <;> rfl

def Worker.rest (w : Worker α) (job : Job α) (work : Work) (now : Int) : Worker α :=
  { w.count work.ok with phase := .pausing, nextFire := job.nextFire w.nextFire now }

/-- What a worker leaves behind when it stops to wait: its deeds, the newest first, come before all
that it did earlier. -/
structure Trace (α : Type) where
  worker : Worker α
  wait : Wait
  events : List (Event α)
  recorder : Recorder

def Trace.after (t : Trace α) (e : Event α) : Trace α := { t with events := t.events ++ [e] }

def Act.trace (c : Course α) (i : Nat) (s : State α) (w : Worker α) (job : Job α) : Act → Trace α
  | .send request purpose =>
    let answer := c.setting.client s.sent request
    ⟨{ w with phase := .sending job purpose s.now answer }, .alarm (s.now + answer.latency),
      [.sent i s.now job.edition request], s.recorder⟩
  | .think ms x p =>
    ⟨{ w with phase := .thinking job x p }, .alarm (Execution.wakeTime s.now ms), [], s.recorder⟩
  | .complete jar work =>
    let a := (Account.ofRecorder s.recorder w.reported).ofWork s.now job.edition.plan.sampling i work
    let w := { w with jar, reported := a.reported }
    match a.trouble with
    | some _ => ⟨{ w with phase := .stopped }, .nothing, [], a.recorder⟩
    | none =>
      ⟨w.rest job work s.now, .pause s.now (min (job.nextFire w.nextFire s.now) c.deadline),
        [.ended i s.now job work], a.recorder⟩
  | .stop _ => ⟨{ w with phase := .stopped }, .nothing, [], s.recorder⟩

/-- The acts with which a worker can go on in the middle of a unit. -/
inductive GoesOn (now : Int) (w : Worker α) : Job α → Act → Prop
  | broken {job : Job α} {purpose : Purpose} {sentAt : Int} {answer : Http.Answer} {message : Bytes}
      (h : w.phase = .sending job purpose sentAt answer) (ha : answer.reply = .error message) :
      GoesOn now w job (.stop message)
  | bare {job : Job α} {label : Bytes} {sentAt : Int} {answer : Http.Answer} {reply : Http.Reply}
      (h : w.phase = .sending job (.bare label) sentAt answer) (ha : answer.reply = .ok reply) :
      GoesOn now w job (.complete w.jar (.bare label reply (millisBetween sentAt now)))
  | step {job : Job α} {x : Execution} {p : Execution.Progress} {step : Step} {sentAt : Int}
      {answer : Http.Answer} {reply : Http.Reply}
      (h : w.phase = .sending job (.step x p step) sentAt answer) (ha : answer.reply = .ok reply)
      (random : Nat) :
      GoesOn now w job (.ofDemand x now (x.resume p step reply sentAt now random).1)
  | thought {job : Job α} {x : Execution} {p : Execution.Progress}
      (h : w.phase = .thinking job x p) : GoesOn now w job (.ofDemand x now (x.next p now))

/-- A worker that is at the head of its loop at time `now`; one that was parked is due now. -/
inductive AtHead (now : Int) (w : Worker α) : Worker α → Prop
  | pausing (h : w.phase = .pausing) : AtHead now w w
  | parked (h : w.phase = .parked) : AtHead now w { w with phase := .pausing, nextFire := now }

namespace State

/-- Worker `i` turns `s` into `s'`, and leaves `t` behind. -/
structure Leads (c : Course α) (i : Nat) (s s' : State α) (t : Trace α) : Prop where
  only : Only c (.worker i) s s'
  standing : Standing s' i t.worker t.wait
  records : Records s s' t.events
  mine : ∀ e ∈ t.events, e.worker? = some i
  recorder : s'.recorder = t.recorder
  sent : s'.sent = s.sent + t.events.countP Event.isSent

theorem recorder_publishAll (s : State α) (plans : List (Plan α)) :
    (s.publishAll plans).recorder = s.recorder := by
  induction plans generalizing s with
  | nil => rfl
  | cons plan plans ih => exact ih _

theorem sent_publishAll (s : State α) (plans : List (Plan α)) :
    (s.publishAll plans).sent = s.sent := by
  induction plans generalizing s with
  | nil => rfl
  | cons plan plans ih => exact ih _

section

variable {c : Course α} {i : Nat} {s s₁ s' : State α} {w w₀ : Worker α} {job : Job α} {t : Trace α}

theorem Leads.deeds (h : Leads c i s s' t) : s'.deeds = t.events ++ s.deeds := by
  rw [h.records.deeds, List.filter_eq_self.mpr fun e he => by simp [h.mine e he]]

theorem Leads.of_aside (h : Aside s s₁) (h' : Leads c i s₁ s' t) : Leads c i s s' t where
  only := (h.only c _).trans h'.only
  standing := h'.standing
  records := by
    have hr := h'.records
    rw [Records, edition, h.channel, h.journal] at hr
    exact hr
  mine := h'.mine
  recorder := h'.recorder
  sent := h.sent ▸ h'.sent

theorem Leads.after {e : Event α} (he : e.worker? = some i) (hs : e.isSent = false)
    (h : Leads c i (s.note e) s' t) : Leads c i s s' (t.after e) where
  only := (only_note _ e).trans h.only
  standing := h.standing
  records := h.records.after
  mine := by
    intro e' h'
    rcases List.mem_append.mp h' with h' | h'
    · exact h.mine e' h'
    · rw [List.mem_singleton.mp h', he]
  recorder := h.recorder
  sent := by
    rw [h.sent, Trace.after, List.countP_append]
    simp [hs]
    rfl

theorem trace_of_aside (h : Aside s s₁) (act : Act) :
    act.trace c i s₁ w job = act.trace c i s w job := by
  cases act <;> simp only [Act.trace, h.now, h.sent, h.recorder]

theorem leads_pauseUntil (h : Standing s i w₀ .nothing) (w : Worker α) (time : Int) :
    Leads c i s (s.pauseUntil i w time)
      ⟨{ w with phase := .pausing }, .pause s.now time, [], s.recorder⟩ := by
  unfold pauseUntil Wait.pause
  have hs := h.setWorker { w with phase := .pausing }
  have ho : Only c (.worker i) s (s.setWorker i { w with phase := .pausing }) := only_setWorker _
  dsimp only [setWorker]
  split
  · exact ⟨ho.trans (only_hurry _), hs.hurry, .of_eq rfl rfl, by simp, rfl, rfl⟩
  · exact ⟨ho.trans (only_arm _ _), hs.arm _, .of_eq rfl rfl, by simp, rfl, rfl⟩

theorem leads_stop (h : Standing s i w₀ .nothing) (w : Worker α) (message : Bytes) :
    Leads c i s (s.stop i w message) ⟨{ w with phase := .stopped }, .nothing, [], s.recorder⟩ where
  only := (only_setWorker _).trans (only_say _ _)
  standing := (Aside.say _ _).standing (h.setWorker _)
  records := .of_eq rfl rfl
  mine := by simp
  recorder := rfl
  sent := rfl

theorem leads_send (h : Standing s i w₀ .nothing) (request : Http.Request) (purpose : Purpose) :
    Leads c i s (s.send c i w job request purpose)
      ((Act.send request purpose).trace c i s w job) := by
  let s₁ : State α := { s with sent := s.sent + 1 }.note (.sent i s.now job.edition request)
  have h₁ (a : Actor) : Only c a s (s₁.publishAll (c.setting.newsAt (.request s.sent))) :=
    Only.trans (t := s₁) (.of_eq rfl rfl rfl rfl rfl) (only_publishAll a fun _ => mem_newsAt)
  have hs := (h₁ .guard).standing (by simp) h
  refine ⟨((h₁ _).trans (only_setWorker _)).trans (only_arm _ _), (hs.setWorker _).arm _, ?_, ?_,
    ?_, ?_⟩
  · have hr : Records s s₁ [.sent i s.now job.edition request] := .of_eq rfl rfl
    exact hr.trans (records_publishAll s₁ _)
  · simp [Act.trace, Event.worker?]
  · exact recorder_publishAll s₁ _
  · exact sent_publishAll s₁ _

theorem leads_finishUnit (h : Standing s i w₀ .nothing) (w : Worker α) (job : Job α)
    (work : Work) :
    Leads c i s (s.finishUnit c i w job work)
      ⟨w.rest job work s.now, .pause s.now (min (job.nextFire w.nextFire s.now) c.deadline),
        [.ended i s.now job work], s.recorder⟩ := by
  have hn : Standing (s.note (.ended i s.now job work)) i w₀ .nothing :=
    (only_note (c := c) .guard _).standing (by simp) h
  have hl : Leads c i (s.note (.ended i s.now job work)) (s.finishUnit c i w job work)
      ⟨w.rest job work s.now, .pause s.now (min (job.nextFire w.nextFire s.now) c.deadline), [],
        s.recorder⟩ := by
    by_cases hd : job.delayMs = 0
    · have hp : Wait.pause s.now (min s.now c.deadline) = .turn := if_pos (Int.min_le_left _ _)
      simp only [finishUnit, Worker.rest, Job.nextFire, hd, ↓reduceIte, hp]
      exact ⟨(only_setWorker _).trans (only_post _), (hn.setWorker _).post, .of_eq rfl rfl,
        by simp, rfl, rfl⟩
    · simp only [finishUnit, Worker.rest, Job.nextFire, hd, ↓reduceIte]
      exact leads_pauseUntil hn _ _
  exact hl.after rfl rfl

theorem leads_complete (h : Standing s i w₀ .nothing) (w : Worker α) (jar : CookieJar)
    (work : Work) :
    Leads c i s (s.complete c i { w with jar } job work)
      ((Act.complete jar work).trace c i s w job) := by
  rw [complete, Act.trace]
  dsimp only
  generalize (Account.ofRecorder s.recorder w.reported).ofWork s.now job.edition.plan.sampling i
    work = a
  let s₁ : State α := { s with recorder := a.recorder }.say a.notices
  have hs : Standing s₁ i w₀ .nothing := ⟨h.worker, h.alarms, h.calls⟩
  have ho : Only c (.worker i) s s₁ := .of_eq rfl rfl rfl rfl rfl
  cases a.trouble with
  | some message =>
    have hl := leads_stop (c := c) hs { w with jar, reported := a.reported } message
    exact ⟨ho.trans hl.only, hl.standing, hl.records, hl.mine, hl.recorder, hl.sent⟩
  | none =>
    have hl := leads_finishUnit (c := c) hs { w with jar, reported := a.reported } job work
    exact ⟨ho.trans hl.only, hl.standing, hl.records, hl.mine, hl.recorder, hl.sent⟩

theorem leads_carryOut (h : Standing s i w₀ .nothing) (w : Worker α) (job : Job α) (act : Act) :
    Leads c i s (s.carryOut c i w job act) (act.trace c i s w job) := by
  cases act with
  | send request purpose => exact leads_send h request purpose
  | think ms x p =>
    exact ⟨(only_setWorker _).trans (only_arm _ _), (h.setWorker _).arm _, .of_eq rfl rfl,
      by simp [Act.trace], rfl, rfl⟩
  | complete jar work => exact leads_complete h w jar work
  | stop message => exact leads_stop h w message

end

end State

variable [Scalar α]

def Deals (row : Row) : Option Table → Prop
  | none => row = []
  | some table => ∃ n, row = table.deal n

omit [Scalar α] in
theorem deals_deal (s : State α) (key : Nat × Nat) (table : Option Table) :
    Deals (s.deal key table).1 table := by
  cases table with
  | none => rfl
  | some table => exact ⟨s.dealtOf key, rfl⟩

/-- The acts with which a unit of work can begin. -/
inductive Opens (c : Course α) (now : Int) (jar : CookieJar) (e : Edition α) : Act → Prop
  | scenario {selector : Selector α} (h : e.plan.selector = some selector) (random : Nat) (row : Row)
      {x : Execution} (hx : x = ⟨(selector.selectAt (Selector.point random)).name, e.plan.baseUrl,
        e.plan.timeoutMs, c.setting.calendar, now, some c.deadline⟩)
      (hrow : Deals row (selector.selectAt (Selector.point random)).table) :
      Opens c now jar e (.ofDemand x now
        (x.start (selector.selectAt (Selector.point random)).steps (Variables.load [] row) jar))
  | bare {t : RequestTemplate} (h : e.plan.selector = none) (ht : e.plan.request = some t) :
      Opens c now jar e
        (.send (t.plain e.plan.baseUrl e.plan.timeoutMs) (.bare (State.bareLabel t)))
  | nothing (h : e.plan.selector = none) (ht : e.plan.request = none) :
      Opens c now jar e (.complete jar .nothing)

def taken (s : State α) (i : Nat) (w : Worker α) : Edition α := (s.refresh i w.edition).1

def pace (c : Course α) (s : State α) (e : Edition α) : Option Nat :=
  Pacing.delay? (s.rate c e) c.workers

/-- What worker `i`, which stands as `w` in state `s`, can leave behind when it goes on. -/
inductive Moves (c : Course α) (i : Nat) (s : State α) (w : Worker α) : Trace α → Prop
  | begins (h : w.phase = .fresh) {first : Int} (hf : first = State.firstFire c i s.edition) :
      Moves c i s w
        ⟨{ w with phase := .pausing, edition := some s.edition, nextFire := first },
          .pause s.now (min first c.deadline), [.begun i s.now s.edition], s.recorder⟩
  | leaves {w' : Worker α} (h : AtHead s.now w w') (hd : c.deadline ≤ s.now) :
      Moves c i s w ⟨{ w' with phase := .finished }, .nothing, [], s.recorder⟩
  | parks {w' : Worker α} (h : AtHead s.now w w') (hd : s.now < c.deadline) {e : Edition α}
      (he : e = taken s i w') (hp : pace c s e = none) :
      Moves c i s w
        ⟨{ w' with edition := some e, phase := .parked, parks := w'.parks + 1 },
          .alarm (min (s.now + Pacing.longestMs * Clock.perMilli) c.deadline),
          [.paced i s.now e none], s.recorder⟩
  | starts {w' : Worker α} (h : AtHead s.now w w') (hd : s.now < c.deadline) {e : Edition α}
      (he : e = taken s i w') {delayMs : Nat} (hp : pace c s e = some delayMs) {act : Act}
      (ha : Opens c s.now w'.jar e act) :
      Moves c i s w ((act.trace c i s { w' with edition := some e } ⟨e, delayMs⟩).after
        (.paced i s.now e (some delayMs)))
  | goesOn {job : Job α} {act : Act} (h : GoesOn s.now w job act) :
      Moves c i s w (act.trace c i s w job)

namespace State

variable {c : Course α} {i : Nat} {s : State α} {w w' w₀ : Worker α}

omit [Scalar α] in
theorem receive_goesOn {job : Job α} {purpose : Purpose} {sentAt : Int} {answer : Http.Answer}
    (h : w.phase = .sending job purpose sentAt answer) :
    GoesOn s.now w job (s.receive c w purpose sentAt answer).1 ∧
      Aside s (s.receive c w purpose sentAt answer).2 := by
  cases ha : answer.reply with
  | error message =>
    simp only [receive, ha]
    exact ⟨.broken h ha, .refl s⟩
  | ok reply =>
    cases purpose with
    | bare label =>
      simp only [receive, ha]
      exact ⟨.bare h ha, .refl s⟩
    | step x p step =>
      simp only [receive, ha]
      exact ⟨.step h ha _, (Aside.draw s c).trans (.say _ _)⟩

theorem beginUnit_opens (e : Edition α) :
    Opens c s.now w.jar e (s.beginUnit c w e).1 ∧ Aside s (s.beginUnit c w e).2 := by
  cases h : e.plan.selector with
  | some selector =>
    simp only [beginUnit, h]
    have ha (key : Nat × Nat) (table : Option Table) : Aside s ((s.draw c).2.deal key table).2 :=
      (Aside.draw s c).trans (.deal _ key table)
    refine ⟨?_, ha _ _⟩
    rw [(ha _ _).now]
    exact .scenario h _ _ rfl (deals_deal _ _ _)
  | none =>
    cases ht : e.plan.request with
    | some t =>
      simp only [beginUnit, h, ht]
      exact ⟨.bare h ht, .refl s⟩
    | none =>
      simp only [beginUnit, h, ht]
      exact ⟨.nothing h ht, .refl s⟩

theorem exists_leads_turn (h : Standing s i w₀ .nothing) (hw : AtHead s.now w w') :
    ∃ t, Moves c i s w t ∧ Leads c i s (s.turn c i w') t := by
  by_cases hd : s.now < c.deadline
  · rw [turn, if_pos hd]
    generalize hr : s.refresh i w'.edition = r
    obtain ⟨e, notices⟩ := r
    have he : e = taken s i w' := by rw [taken, hr]
    have ha : Aside s (s.say notices) := .say s notices
    dsimp only
    cases hp : Pacing.delay? (s.rate c e) c.workers with
    | none =>
      let s₁ := (s.say notices).note (.paced i s.now e none)
      have hs : Standing s₁ i w₀ .nothing :=
        (only_note (c := c) .guard _).standing (by simp) (ha.standing h)
      refine ⟨_, .parks hw hd he hp, .of_aside ha (.after (t := ⟨_, _, [], _⟩) rfl rfl ?_)⟩
      exact ⟨(only_setWorker _).trans (only_arm _ _), (hs.setWorker _).arm _, .of_eq rfl rfl,
        by simp, rfl, rfl⟩
    | some delayMs =>
      let s₁ := (s.say notices).note (.paced i s.now e (some delayMs))
      have hs : Standing s₁ i w₀ .nothing :=
        (only_note (c := c) .guard _).standing (by simp) (ha.standing h)
      obtain ⟨ho, hb⟩ := beginUnit_opens (c := c) (s := s₁) (w := { w' with edition := some e }) e
      have hl := leads_carryOut (c := c) (hb.standing hs) { w' with edition := some e }
        ⟨e, delayMs⟩ (s₁.beginUnit c { w' with edition := some e } e).1
      rw [trace_of_aside hb] at hl
      exact ⟨_, .starts hw hd he hp ho, .of_aside ha (.after rfl rfl (.of_aside hb hl))⟩
  · rw [turn, if_neg hd]
    exact ⟨_, .leaves hw (Int.not_lt.mp hd), only_setWorker _, h.setWorker _, .of_eq rfl rfl,
      by simp, rfl, rfl⟩

theorem exists_leads_resumeWorker (h : Standing s i w .nothing) (hw : w.isOver = false) :
    ∃ t, Moves c i s w t ∧ Leads c i s (s.resumeWorker c i w) t := by
  cases hp : w.phase with
  | fresh =>
    simp only [resumeWorker, hp]
    have hn : Standing (s.note (.begun i s.now s.edition)) i w .nothing :=
      (only_note (c := c) .guard _).standing (by simp) h
    exact ⟨_, .begins hp rfl, .after (t := ⟨_, _, [], _⟩) rfl rfl (leads_pauseUntil hn _ _)⟩
  | pausing =>
    simp only [resumeWorker, hp]
    exact exists_leads_turn h (.pausing hp)
  | parked =>
    simp only [resumeWorker, hp]
    exact exists_leads_turn h (.parked hp)
  | sending job purpose sentAt answer =>
    simp only [resumeWorker, hp]
    obtain ⟨hg, ha⟩ := receive_goesOn (c := c) (s := s) hp
    have hl := leads_carryOut (c := c) (ha.standing h) w job
      (s.receive c w purpose sentAt answer).1
    rw [trace_of_aside ha] at hl
    exact ⟨_, .goesOn hg, .of_aside ha hl⟩
  | thinking job x p =>
    simp only [resumeWorker, hp]
    exact ⟨_, .goesOn (.thought hp), leads_carryOut h w job _⟩
  | finished => simp [Worker.isOver, hp] at hw
  | stopped => simp [Worker.isOver, hp] at hw

end State

end LoadGenerator.Run
