import LoadGenerator.Proofs.Run.Interleaving
import LoadGenerator.Proofs.Scenario.Exchange
import Mathlib.Data.List.Forall2

namespace LoadGenerator.Run

open Http State

variable {α : Type}

structure Asking where
  sentAt : Int
  request : Request
  answer : Answer

/-- What worker `i` has asked for in scenarios, given what has happened, the newest first. The
client numbers the requests of all workers. -/
def dialogue (c : Course α) (i : Nat) : List (Event α) → List Asking
  | [] => []
  | .sent j time e request :: past =>
    if j = i ∧ e.plan.selector.isSome then
      dialogue c i past ++ [⟨time, request, c.setting.client (past.countP Event.isSent) request⟩]
    else dialogue c i past
  | _ :: past => dialogue c i past

def Event.result? (i : Nat) : Event α → Option ScenarioResult
  | .ended j _ _ (.scenario r) => if j = i then some r else none
  | _ => none

def reports (i : Nat) (past : List (Event α)) : List ScenarioResult :=
  (past.filterMap (Event.result? i)).reverse

section

variable {c : Course α} {i : Nat} {s s' : State α} {es past : List (Event α)}

theorem dialogue_append (h : ∀ e ∈ es, e.worker? ≠ some i) (past : List (Event α)) :
    dialogue c i (es ++ past) = dialogue c i past := by
  induction es with
  | nil => rfl
  | cons e es ih =>
    obtain ⟨he, hes⟩ := List.forall_mem_cons.mp h
    cases e with
    | sent j time edition request =>
      have hj : j ≠ i := fun hj => he (congrArg some hj)
      rw [List.cons_append, dialogue, if_neg (by simp [hj]), ih hes]
    | _ => exact ih hes

theorem reports_append (h : ∀ e ∈ es, e.worker? ≠ some i) (past : List (Event α)) :
    reports i (es ++ past) = reports i past := by
  have hnone : es.filterMap (Event.result? i) = [] := by
    rw [List.filterMap_eq_nil_iff]
    intro e he
    have hi := h e he
    unfold Event.result?
    split
    · exact if_neg fun hj => hi (congrArg some hj)
    · rfl
  rw [reports, List.filterMap_append, hnone, List.nil_append, reports]

theorem State.Records.seen (h : Records s s' es) (c : Course α) (i : Nat) :
    dialogue c i s'.journal = dialogue c i (es ++ s.journal) ∧
      reports i s'.journal = reports i (es ++ s.journal) := by
  obtain ⟨news, hp, hj⟩ := h
  have hnews : ∀ e ∈ news, e.worker? ≠ some i := fun e he => by simp [hp.worker?_eq_none e he]
  rw [hj, List.append_assoc]
  exact ⟨dialogue_append hnews _, reports_append hnews _⟩

theorem State.Records.countP_sent (h : Records s s' es) :
    s'.journal.countP Event.isSent = es.countP Event.isSent + s.journal.countP Event.isSent := by
  obtain ⟨news, hp, hj⟩ := h
  have hnews : news.countP Event.isSent = 0 := by
    rw [List.countP_eq_zero]
    intro e he
    have hnone := hp.worker?_eq_none e he
    cases e <;> simp [Event.worker?, Event.isSent] at hnone ⊢
  rw [hj, List.countP_append, List.countP_append, hnews, Nat.zero_add]

end

/-- An execution of a scenario, with the exchanges that it has had. -/
structure Visit (α : Type) where
  edition : Edition α
  scenario : Scenario α
  row : Row
  startedAt : Int
  exchanges : List Exchange

namespace Visit

def Fits (v : Visit α) : Prop :=
  ∃ selector, v.edition.plan.selector = some selector ∧ v.scenario ∈ selector.scenarios ∧
    Deals v.row v.scenario.table

def execution (c : Course α) (v : Visit α) : Execution :=
  ⟨v.scenario.name, v.edition.plan.baseUrl, v.edition.plan.timeoutMs, c.setting.calendar,
    v.startedAt, some c.deadline⟩

def Comes (c : Course α) (v : Visit α) (jar : CookieJar) (now : Int) (d : Execution.Demand) :
    Prop :=
  (v.execution c).Comes v.scenario.steps (Variables.load [] v.row) jar v.exchanges now d

def request (c : Course α) (v : Visit α) (before : List (Visit α)) (done : List Exchange)
    (step : Step) : Request :=
  let vars := Variables.load [] (v.row ++ done.flatMap Exchange.values)
  let cookies := (before.flatMap exchanges ++ done).flatMap Exchange.cookies
  step.request.build v.edition.plan.baseUrl v.edition.plan.timeoutMs
    (vars.substitute c.setting.calendar) (cookies.foldl CookieJar.set [])

end Visit

def jarOf (visits : List (Visit α)) : CookieJar :=
  Execution.jarAfter [] (visits.flatMap Visit.exchanges)

/-- The visits of a worker: those that are over, the one that is going on, and what has been asked
in it and was not replied to. -/
structure Session (α : Type) where
  ended : List (Visit α)
  current : Option (Visit α)
  pending : Option Asking

namespace Session

def visits (k : Session α) : List (Visit α) := k.ended ++ k.current.toList

def Comes (c : Course α) (k : Session α) (e : Edition α) (x : Execution) (now : Int)
    (d : Execution.Demand) : Prop :=
  ∃ v, k.current = some v ∧ v.edition = e ∧ v.execution c = x ∧ v.Comes c (jarOf k.ended) now d

end Session

/-- The exchange is about what was asked, and the reply is that of the client. -/
structure Asking.Brings (a : Asking) (e : Exchange) : Prop where
  sentAt : e.sentAt = a.sentAt
  request : e.request = a.request
  reply : a.answer.reply = .ok e.reply

inductive Ended (c : Course α) : List (Visit α) → List ScenarioResult → Prop
  | nothing : Ended c [] []
  | next {vs : List (Visit α)} {rs : List ScenarioResult} {v : Visit α} {now : Int}
      {verdict : Verdict} {p : Execution.Progress} (h : Ended c vs rs) (hv : v.Fits)
      (hc : v.Comes c (jarOf vs) now (.finished verdict p)) :
      Ended c (vs ++ [v]) (rs ++ [(v.execution c).result verdict p now])

namespace Session

/-- The session tells how it came to what was asked and reported. -/
structure Recounts (c : Course α) (k : Session α) (asked : List Asking)
    (results : List ScenarioResult) : Prop where
  heard : ∃ answered, asked = answered ++ k.pending.toList ∧
    List.Forall₂ Asking.Brings answered (k.visits.flatMap Visit.exchanges)
  ended : Ended c k.ended results
  current : ∀ v, k.current = some v → v.Fits ∧ ∃ now d, v.Comes c (jarOf k.ended) now d
  pending : ∀ a, k.pending = some a →
    ∃ e x step p, k.Comes c e x a.sentAt (.send a.request step p)

/-- What is asked for next is what the phase of the worker says. -/
def Suits (c : Course α) (k : Session α) (jar : CookieJar) : Phase α → Prop
  | .sending job (.step x p step) sentAt answer => jar = jarOf k.ended ∧
    ∃ request, k.pending = some ⟨sentAt, request, answer⟩ ∧
      k.Comes c job.edition x sentAt (.send request step p)
  | .thinking job x p => jar = jarOf k.ended ∧ k.pending = none ∧
    ∃ now ms, k.Comes c job.edition x now (.pause ms p)
  | .stopped => True
  | _ => jar = jarOf k.ended ∧ k.pending = none ∧ k.current = none

def Does (c : Course α) (k : Session α) (jar : CookieJar) (job : Job α) (now : Int) : Act → Prop
  | .send request (.step x p step) => jar = jarOf k.ended ∧ k.pending = none ∧
    k.Comes c job.edition x now (.send request step p)
  | .send _ (.bare _) => jar = jarOf k.ended ∧ k.pending = none ∧ k.current = none ∧
    job.edition.plan.selector = none
  | .think ms x p => jar = jarOf k.ended ∧ k.pending = none ∧
    k.Comes c job.edition x now (.pause ms p)
  | .complete jar' (.scenario r) => k.pending = none ∧ ∃ x verdict p,
    k.Comes c job.edition x now (.finished verdict p) ∧ jar' = p.jar ∧ r = x.result verdict p now
  | .complete jar' _ => jar' = jarOf k.ended ∧ k.pending = none ∧ k.current = none
  | .stop _ => True

section

variable {c : Course α} {k : Session α} {jar : CookieJar} {job : Job α} {x : Execution} {now : Int}
  {d : Execution.Demand} {asked : List Asking} {results : List ScenarioResult}

theorem does_ofDemand (hjar : jar = jarOf k.ended) (hp : k.pending = none)
    (h : k.Comes c job.edition x now d) : k.Does c jar job now (.ofDemand x now d) := by
  cases d with
  | send request step p => exact ⟨hjar, hp, h⟩
  | pause ms p => exact ⟨hjar, hp, h⟩
  | finished verdict p => exact ⟨hp, x, verdict, p, h, rfl, rfl⟩

theorem Recounts.opens (h : k.Recounts c asked results) (hp : k.pending = none)
    (hc : k.current = none) {v : Visit α} (hv : v.Fits) (he : v.exchanges = [])
    (hd : v.Comes c (jarOf k.ended) now d) :
    ({ k with current := some v } : Session α).Recounts c asked results where
  heard := by
    have hvisits : ({ k with current := some v } : Session α).visits.flatMap Visit.exchanges =
        k.visits.flatMap Visit.exchanges := by simp [visits, hc, he]
    rw [hvisits]
    exact h.heard
  ended := h.ended
  current := by
    rintro _ ⟨⟩
    exact ⟨hv, now, d, hd⟩
  pending := by simp [hp]

theorem Recounts.takes (h : k.Recounts c asked results) {a : Asking} (hp : k.pending = some a)
    {v : Visit α} (hc : k.current = some v) {e : Exchange} (he : a.Brings e)
    (hd : ({ v with exchanges := v.exchanges ++ [e] } : Visit α).Comes c (jarOf k.ended) now d) :
    (⟨k.ended, some { v with exchanges := v.exchanges ++ [e] }, none⟩ : Session α).Recounts c asked
      results where
  heard := by
    obtain ⟨answered, hasked, hall⟩ := h.heard
    refine ⟨answered ++ [a], by simp [hasked, hp], ?_⟩
    have hvisits := List.rel_append hall (.cons he .nil)
    simpa [visits, hc] using hvisits
  ended := h.ended
  current := by
    rintro _ ⟨⟩
    exact ⟨(h.current v hc).1, now, d, hd⟩
  pending := by simp

theorem Recounts.asks (h : k.Recounts c asked results) (hp : k.pending = none) {a : Asking}
    {e : Edition α} {step : Step} {p : Execution.Progress}
    (hd : k.Comes c e x a.sentAt (.send a.request step p)) :
    ({ k with pending := some a } : Session α).Recounts c (asked ++ [a]) results where
  heard := by
    obtain ⟨answered, hasked, hall⟩ := h.heard
    exact ⟨answered, by simp [hasked, hp], hall⟩
  ended := h.ended
  current := h.current
  pending := by
    rintro _ ⟨⟩
    exact ⟨e, x, step, p, hd⟩

theorem Recounts.ends (h : k.Recounts c asked results) (hp : k.pending = none) {v : Visit α}
    (hc : k.current = some v) {verdict : Verdict} {p : Execution.Progress}
    (hd : v.Comes c (jarOf k.ended) now (.finished verdict p)) :
    (⟨k.ended ++ [v], none, none⟩ : Session α).Recounts c asked
      (results ++ [(v.execution c).result verdict p now]) where
  heard := by
    have hheard := h.heard
    simp only [visits, hc, hp] at hheard
    simpa [visits] using hheard
  ended := h.ended.next (h.current v hc).1 hd
  current := by simp
  pending := by simp

theorem jarOf_append (vs : List (Visit α)) (v : Visit α) :
    jarOf (vs ++ [v]) = Execution.jarAfter (jarOf vs) v.exchanges := by
  rw [jarOf, List.flatMap_append, Execution.jarAfter_append]
  simp [jarOf]

theorem jar_of_finished {v : Visit α} {verdict : Verdict} {p : Execution.Progress}
    (h : v.Comes c (jarOf k.ended) now (.finished verdict p)) : p.jar = jarOf (k.ended ++ [v]) := by
  rw [jarOf_append]
  cases (Execution.Comes.follows h).2 with
  | finished h he => exact h.jar

theorem exists_does_of_goesOn {w : Worker α} {act : Act} (hg : GoesOn now w job act)
    (h : k.Recounts c asked results) (hs : k.Suits c w.jar w.phase) :
    ∃ k' : Session α, k'.Recounts c asked results ∧ k'.Does c w.jar job now act := by
  cases hg with
  | broken hp ha => exact ⟨k, h, trivial⟩
  | bare hp ha =>
    rw [hp] at hs
    exact ⟨k, h, hs⟩
  | @step x p step sentAt answer reply hp ha random =>
    rw [hp] at hs
    obtain ⟨hjar, request, hpending, v, hc, hedition, hx, hv⟩ := hs
    let e : Exchange := ⟨step, request, reply, sentAt, now⟩
    have hv' : ({ v with exchanges := v.exchanges ++ [e] } : Visit α).Comes c (jarOf k.ended) now
        (x.resume p step reply sentAt now random).1 := hx ▸ .answered hv reply now random
    have he : Asking.Brings ⟨sentAt, request, answer⟩ e := ⟨rfl, rfl, ha⟩
    exact ⟨_, h.takes hpending hc he hv', does_ofDemand hjar rfl ⟨_, rfl, hedition, hx, hv'⟩⟩
  | @thought x p hp =>
    rw [hp] at hs
    obtain ⟨hjar, hpending, before, ms, v, hc, hedition, hx, hv⟩ := hs
    have hv' : v.Comes c (jarOf k.ended) now (x.next p now) := hx ▸ .paused hv now
    exact ⟨k, h, does_ofDemand hjar hpending ⟨v, hc, hedition, hx, hv'⟩⟩

theorem exists_suits_trace {i : Nat} {s : State α} {w : Worker α} {act : Act}
    {past : List (Event α)} (h : k.Recounts c (dialogue c i past) (reports i past)) (hs : k.Does c w.jar job s.now act)
    (hsent : s.sent = past.countP Event.isSent) :
    ∃ k' : Session α, k'.Recounts c (dialogue c i ((act.trace c i s w job).events ++ past))
        (reports i ((act.trace c i s w job).events ++ past)) ∧
      k'.Suits c (act.trace c i s w job).worker.jar (act.trace c i s w job).worker.phase := by
  cases act with
  | send request purpose =>
    have hreports : reports i ([.sent i s.now job.edition request] ++ past) = reports i past := rfl
    cases purpose with
    | bare label =>
      obtain ⟨hjar, hp, hc, hselector⟩ := hs
      have hdialogue : dialogue c i ([.sent i s.now job.edition request] ++ past) =
          dialogue c i past := by simp [dialogue, hselector]
      refine ⟨k, ?_, hjar, hp, hc⟩
      rw [Act.trace, hdialogue, hreports]
      exact h
    | step x p step =>
      obtain ⟨hjar, hp, v, hc, hedition, hx, hv⟩ := hs
      have hk : k.Comes c job.edition x s.now (.send request step p) := ⟨v, hc, hedition, hx, hv⟩
      -- the visit is to a scenario of the plan, so the request counts as one of a scenario
      obtain ⟨⟨selector, hselector, -⟩, -⟩ := h.current v hc
      rw [hedition] at hselector
      have hdialogue : dialogue c i ([.sent i s.now job.edition request] ++ past) =
          dialogue c i past ++ [⟨s.now, request, c.setting.client s.sent request⟩] := by
        simp [dialogue, hselector, hsent]
      refine ⟨{ k with pending := some ⟨s.now, request, c.setting.client s.sent request⟩ }, ?_,
        hjar, request, rfl, hk⟩
      rw [Act.trace, hdialogue, hreports]
      exact h.asks hp (a := ⟨s.now, request, c.setting.client s.sent request⟩) hk
  | think ms x p =>
    obtain ⟨hjar, hp, hk⟩ := hs
    exact ⟨k, h, hjar, hp, s.now, ms, hk⟩
  | complete jar work =>
    rw [Act.trace]
    dsimp only
    split
    · -- the worker breaks down before it reports, and sends nothing any more
      exact ⟨k, h, trivial⟩
    · cases work with
      | bare label reply ms => exact ⟨k, h, hs⟩
      | nothing => exact ⟨k, h, hs⟩
      | scenario r =>
        obtain ⟨hp, x, verdict, p, ⟨v, hc, -, rfl, hv⟩, rfl, rfl⟩ := hs
        have hreports (r : ScenarioResult) :
            reports i ([.ended i s.now job (.scenario r)] ++ past) = reports i past ++ [r] := by
          simp [reports, Event.result?]
        refine ⟨⟨k.ended ++ [v], none, none⟩, ?_, jar_of_finished hv, rfl, rfl⟩
        rw [hreports]
        exact h.ends hp hc hv
  | stop message => exact ⟨k, h, trivial⟩

theorem idle_of_atHead {w w' : Worker α} (h : AtHead now w w') (hs : k.Suits c w.jar w.phase) :
    w'.jar = jarOf k.ended ∧ k.pending = none ∧ k.current = none := by
  cases h with
  | pausing hp =>
    rw [hp] at hs
    exact hs
  | parked hp =>
    rw [hp] at hs
    exact hs

variable [Scalar α]

theorem exists_does_of_opens {e : Edition α} {act : Act} (ha : Opens c now jar e act)
    (h : k.Recounts c asked results) (hjar : jar = jarOf k.ended) (hp : k.pending = none)
    (hc : k.current = none) (delayMs : Nat) :
    ∃ k' : Session α, k'.Recounts c asked results ∧ k'.Does c jar ⟨e, delayMs⟩ now act := by
  cases ha with
  | @scenario selector hselector random row x hx hrow =>
    let v : Visit α := ⟨e, selector.selectAt (Selector.point random), row, now, []⟩
    have hv : v.Fits := ⟨selector, hselector, List.get_mem _ _, hrow⟩
    have hd : v.Comes c (jarOf k.ended) now
        (x.start v.scenario.steps (Variables.load [] row) (jarOf k.ended)) := hx ▸ .starts
    -- the first request, if there is one, is the session's next act
    refine ⟨_, h.opens hp hc hv rfl hd, ?_⟩
    subst hjar
    exact does_ofDemand rfl hp ⟨v, rfl, rfl, hx.symm, hd⟩
  | bare hselector ht => exact ⟨k, h, hjar, hp, hc, hselector⟩
  | nothing hselector ht => exact ⟨k, h, hjar, hp, hc⟩

/-- The session of worker `i`, which stands as `w`, given what has happened. -/
structure Matches (c : Course α) (i : Nat) (k : Session α) (w : Worker α) (past : List (Event α)) :
    Prop where
  recounts : k.Recounts c (dialogue c i past) (reports i past)
  suits : k.Suits c w.jar w.phase

theorem exists_of_moves {i : Nat} {s : State α} {w : Worker α} {t : Trace α}
    (hm : Moves c i s w t) (h : k.Matches c i w s.journal)
    (hsent : s.sent = s.journal.countP Event.isSent) :
    ∃ k' : Session α, k'.Matches c i t.worker (t.events ++ s.journal) := by
  obtain ⟨hr, hs⟩ := h
  cases hm with
  | begins hp hf =>
    rw [hp] at hs
    exact ⟨k, hr, hs⟩
  | leaves hhead hd =>
    have hidle := idle_of_atHead hhead hs
    exact ⟨k, hr, hidle⟩
  | parks hhead hd he hp =>
    have hidle := idle_of_atHead hhead hs
    exact ⟨k, hr, hidle⟩
  | @starts w' hhead hd e he delayMs hp act ha =>
    obtain ⟨hjar, hpending, hc⟩ := idle_of_atHead hhead hs
    obtain ⟨k₁, hr₁, hdoes⟩ := exists_does_of_opens ha hr hjar hpending hc delayMs
    let past : List (Event α) := .paced i s.now e (some delayMs) :: s.journal
    have hr' : k₁.Recounts c (dialogue c i past) (reports i past) := hr₁
    obtain ⟨k', hr', hs'⟩ := exists_suits_trace (w := { w' with edition := some e }) hr' hdoes hsent
    refine ⟨k', ?_, hs'⟩
    rw [Trace.after, List.append_assoc]
    exact hr'
  | goesOn hg =>
    obtain ⟨k₁, hr₁, hdoes⟩ := exists_does_of_goesOn hg hr hs
    obtain ⟨k', hr', hs'⟩ := exists_suits_trace hr₁ hdoes hsent
    exact ⟨k', hr', hs'⟩

end

end Session

section

variable [Scalar α] {c : Course α} {s s' : State α} {m m' : Scene α}

structure InSession (c : Course α) (s : State α) : Prop where
  sent : s.sent = s.journal.countP Event.isSent
  sessions : ∀ i w, s.workers[i]? = some w → ∃ k : Session α, k.Matches c i w s.journal

omit [Scalar α] in
theorem InSession.of_records (h : InSession c s) {es : List (Event α)} (hr : Records s s' es)
    (hsent : s'.sent = s.sent + es.countP Event.isSent)
    (hw : ∀ j w, s'.workers[j]? = some w → (s.workers[j]? = some w ∧ ∀ e ∈ es, e.worker? ≠ some j) ∨
      ∃ k : Session α, k.Matches c j w (es ++ s.journal)) : InSession c s' where
  sent := by rw [hsent, hr.countP_sent, h.sent, Nat.add_comm]
  sessions j w hj := by
    obtain ⟨hdialogue, hreports⟩ := hr.seen c j
    obtain ⟨hj, hes⟩ | ⟨k, hrecounts, hs⟩ := hw j w hj
    · obtain ⟨k, hrecounts, hs⟩ := h.sessions j w hj
      refine ⟨k, ?_, hs⟩
      rw [hdialogue, hreports, dialogue_append hes, reports_append hes]
      exact hrecounts
    · refine ⟨k, ?_, hs⟩
      rw [hdialogue, hreports]
      exact hrecounts

omit [Scalar α] in
theorem InSession.of_eq (h : InSession c s) (hj : s'.journal = s.journal) (hs : s'.sent = s.sent)
    (hw : s'.workers = s.workers) : InSession c s' :=
  ⟨by rw [hs, hj, h.sent], by rw [hj, hw]; exact h.sessions⟩

theorem InSession.resume (h : InSession c s) (hh : Local.Holds (fun _ _ _ _ _ => True) s)
    {a : Actor} {s₁ : State α} (ht : Turn a s s₁) : InSession c (s₁.resume c a) := by
  have h₁ : InSession c s₁ := h.of_eq ht.journal ht.sent ht.workers
  cases a with
  | guard =>
    have hg := tends_resumeGuard c s₁
    refine h₁.of_records hg.records hg.sent fun j w hj => .inl ⟨?_, by simp⟩
    rw [← hg.only.worker j (by simp)]
    exact hj
  | worker i =>
    cases hi : s.workers[i]? with
    | none =>
      rw [Local.resume_nobody ht hi]
      exact h₁
    | some w =>
      obtain ⟨t, hmoves, hl⟩ := hh.exists_leads (c := c) ht hi
      refine h₁.of_records hl.records hl.sent fun j v hj => ?_
      by_cases hij : j = i
      · subst hij
        obtain ⟨k, hk⟩ := h₁.sessions j w (ht.workers ▸ hi)
        cases hl.standing.worker.symm.trans hj
        exact .inr (Session.exists_of_moves hmoves hk h₁.sent)
      · have hne : Actor.worker i ≠ .worker j := fun h => hij (Actor.worker.inj h).symm
        refine .inl ⟨(hl.only.worker j hne).symm.trans hj, fun e he => ?_⟩
        rw [hl.mine e he]
        exact fun h => hij (Option.some.inj h).symm

omit [Scalar α] in
theorem sent_wake (s : State α) (i : Nat) : (s.wake i).sent = s.sent := by
  rw [State.wake, State.cancel]
  split
  · split <;> rfl
  · rfl

theorem InSession.step (h : InSession c m.state) (hm : Attuned m) (hs : Happens c m m') :
    InSession c m'.state := by
  cases hs with
  | elapses _ => exact h.of_eq rfl rfl rfl
  | @performs s calls pre rest task hr =>
    cases task with
    | resume a => exact h.resume hm.holds (turn_called hm.holds.inOrder hr)
    | wake j =>
      let s₁ : State α := { s with ready := pre ++ rest }
      have h₁ : InSession c s₁ := h.of_eq rfl rfl rfl
      show InSession c (s₁.wake j)
      exact h₁.of_eq (journal_wake s₁ j).1 (sent_wake s₁ j) (channel_wake s₁ j).2
  | expires _ _ => exact h.of_eq rfl rfl rfl
  | @announces s plan =>
    have hr : Records s (s.announce plan) [] :=
      ⟨[.published s.now (s.channel.version + 1) plan], .next .nothing s.now plan, rfl⟩
    exact h.of_records hr rfl fun j w hj => .inl ⟨hj, by simp⟩
  | asks => exact h.of_eq rfl rfl rfl

theorem inSession {channel : Channel (Plan α) Unit} {r : Metrics.Recorder}
    (h : Interleaved c channel r m) : InSession c m.state := by
  induction h with
  | start =>
    refine ⟨rfl, fun i w hw => ?_⟩
    obtain ⟨-, rfl⟩ : i < c.workers ∧ Worker.fresh c.startedAt = w := by
      simpa [Course.start, List.getElem?_replicate] using hw
    exact ⟨⟨[], none, none⟩, ⟨⟨[], rfl, .nil⟩, .nothing, by simp, by simp⟩, rfl, rfl, rfl⟩
  | step h hs ih => exact ih.step (attuned h) hs

end

namespace Session

/-- All that a worker has asked for in scenarios comes from its visits. A visit begins with its row
alone, to which its own exchanges add the values that they find; the cookies are those of all
exchanges before. -/
structure Flows (c : Course α) (k : Session α) (asked : List Asking)
    (results : List ScenarioResult) : Prop where
  heard : ∃ answered, asked = answered ++ k.pending.toList ∧
    List.Forall₂ Asking.Brings answered (k.visits.flatMap Visit.exchanges)
  reported : List.Forall₂ (fun v r => r.name = v.scenario.name ∧
    r.steps = v.exchanges.map Exchange.result) k.ended results
  fits : ∀ v ∈ k.visits, v.Fits
  ran : ∀ v ∈ k.visits, v.exchanges.map (·.step) <+: v.scenario.steps
  sent : ∀ before v after, k.visits = before ++ v :: after →
    ∀ done e rest, v.exchanges = done ++ e :: rest → e.request = v.request c before done e.step
  pending : ∀ a, k.pending = some a → ∃ v step, k.current = some v ∧
    v.scenario.steps[v.exchanges.length]? = some step ∧
    a.request = v.request c k.ended v.exchanges step
  unanswered : ∀ v ∈ k.visits, ∀ e ∈ v.exchanges, ∀ err, e.reply = .error err →
    e.values = [] ∧ e.cookies = []
  failed : ∀ v ∈ k.visits, ∀ e ∈ v.exchanges, ¬ e.Passes → e.values = []

section

variable {c : Course α} {k : Session α} {v : Visit α} {before after : List (Visit α)}
  {asked : List Asking} {results : List ScenarioResult} {now : Int} {d : Execution.Demand}

theorem request_eq (c : Course α) (v : Visit α) (before : List (Visit α)) (done : List Exchange)
    (step : Step) : (v.execution c).ask (Variables.load [] v.row) (jarOf before) done step =
      v.request c before done step := by
  have hvars : Execution.varsAfter (Variables.load [] v.row) done =
      Variables.load [] (v.row ++ done.flatMap Exchange.values) := by
    simp only [Execution.varsAfter, Variables.load, List.foldl_append]
  have hjar : Execution.jarAfter (jarOf before) done = List.foldl CookieJar.set []
      ((before.flatMap Visit.exchanges ++ done).flatMap Exchange.cookies) := by
    rw [jarOf, ← Execution.jarAfter_append, Execution.jarAfter]
  rw [Execution.ask, hvars, hjar]
  rfl

theorem exists_comes_of_ended {vs : List (Visit α)} (h : Ended c vs results)
    (hv : vs = before ++ v :: after) : v.Fits ∧ ∃ now d, v.Comes c (jarOf before) now d := by
  induction h generalizing after with
  | nothing => simp at hv
  | next h hfits hc ih =>
    obtain ⟨rfl, rfl⟩ | ⟨after', hvs⟩ := split_concat hv
    · exact ⟨hfits, _, _, hc⟩
    · exact ih hvs

theorem Recounts.exists_comes (h : k.Recounts c asked results)
    (hv : k.visits = before ++ v :: after) : v.Fits ∧ ∃ now d, v.Comes c (jarOf before) now d := by
  rw [visits] at hv
  cases hc : k.current with
  | none =>
    rw [hc, Option.toList_none, List.append_nil] at hv
    exact exists_comes_of_ended h.ended hv
  | some current =>
    rw [hc, Option.toList_some] at hv
    obtain ⟨rfl, rfl⟩ | ⟨after', hvs⟩ := split_concat hv
    · exact h.current _ hc
    · exact exists_comes_of_ended h.ended hvs

theorem reported_of_ended {vs : List (Visit α)} (h : Ended c vs results) :
    List.Forall₂ (fun v r => r.name = v.scenario.name ∧
      r.steps = v.exchanges.map Exchange.result) vs results := by
  induction h with
  | nothing => exact .nil
  | next h hv hc ih =>
    exact List.rel_append ih (.cons ⟨rfl, Execution.Comes.steps_result hc⟩ .nil)

theorem Recounts.flows (h : k.Recounts c asked results) : k.Flows c asked results where
  heard := h.heard
  reported := reported_of_ended h.ended
  fits v hv := by
    obtain ⟨before, after, hv⟩ := List.append_of_mem hv
    exact (h.exists_comes hv).1
  ran v hv := by
    obtain ⟨before, after, hv⟩ := List.append_of_mem hv
    obtain ⟨-, now, d, hd⟩ := h.exists_comes hv
    exact Execution.Comes.isPrefix hd
  sent before v after hv done e rest he := by
    obtain ⟨-, now, d, hd⟩ := h.exists_comes hv
    rw [← request_eq]
    exact (Execution.Comes.follows hd).1 done e rest he
  pending a ha := by
    obtain ⟨e, x, step, p, v, hc, -, -, hd⟩ := h.pending a ha
    obtain ⟨sentAt, request, answer⟩ := a
    refine ⟨v, step, hc, ?_⟩
    cases (Execution.Comes.follows hd).2 with
    | send hs hp =>
      refine ⟨?_, request_eq c v k.ended v.exchanges step⟩
      rw [hs.steps]
      simp
  unanswered v hv e he err herr := by simp [Exchange.values, Exchange.cookies, herr]
  failed v hv e he hp := Exchange.values_eq_nil hp

end

end Session

/-- Whatever the client answers, and in whatever order the workers have their turns, each request of
a worker is built from the row of its visit, what the visit has found, and the cookies of all
responses that the worker has had. -/
theorem session_flows [Scalar α] {c : Course α} {channel : Channel (Plan α) Unit}
    {r : Metrics.Recorder} {m : Scene α} (h : Interleaved c channel r m) {i : Nat} {w : Worker α}
    (hw : m.state.workers[i]? = some w) : ∃ k : Session α,
    k.Flows c (dialogue c i m.state.journal) (reports i m.state.journal) := by
  obtain ⟨k, hk, -⟩ := (inSession h).sessions i w hw
  exact ⟨k, hk.flows⟩

def tokens : Client := fun n _ =>
  let cookie : Bytes × Bytes := (utf8 "set-cookie", [115, 61, 48 + n.toUInt8])
  ⟨1000000, .ok (match n with
    | 1 => .ok ⟨500, [cookie], []⟩
    | 2 => .error ⟨.timeout, []⟩
    | _ => .ok ⟨200, [cookie, ([120], [55])], []⟩)⟩

def logins : Plan Rat :=
  let step (path : Bytes) (extractions : List Extraction) : Step :=
    ⟨[], ⟨[], [36, 123] ++ path ++ [125], none, []⟩, extractions, [.statusCode 200], none, none⟩
  let table : Table := ⟨[[117]], [[([117], [49])], [([117], [50])]], by simp⟩
  { planOf 1 1 (.constant 20) with
    selector := some ⟨[⟨[], 1, [step [117] [⟨[116], .header [120]⟩], step [116] []], some table⟩],
      [1], 1, by simp⟩ }

def loggedIn : State Rat :=
  stateAt (Setting.ofClient tokens) (.ofPlan logins) (.create 1 false 0) 0 9

theorem session_flows_tokens :
    let c := Course.ofPlan (Setting.ofClient tokens) logins 0
    ∃ k : Session Rat, k.Flows c (dialogue c 0 loggedIn.journal) (reports 0 loggedIn.journal) ∧
      (dialogue c 0 loggedIn.journal).map (fun a => (a.request.url.getLast?, a.request.headers)) =
        [(some 49, []), (some 55, [(utf8 "Cookie", [115, 61, 48])]),
          (some 50, [(utf8 "Cookie", [115, 61, 49])]), (some 49, [(utf8 "Cookie", [115, 61, 49])]),
          (some 55, [(utf8 "Cookie", [115, 61, 51])])] ∧
      (reports 0 loggedIn.journal).map (·.verdict) = [.failedAt 1, .failedAt 0] := by
  intro c
  have hs := reachable_stateAt (Setting.ofClient tokens) (.ofPlan logins) (.create 1 false 0) 0 9
  have hsome : loggedIn.workers[0]?.isSome = true := by decide +kernel
  obtain ⟨w, hw⟩ := Option.isSome_iff_exists.mp hsome
  obtain ⟨k, hk⟩ := session_flows hs.interleaved hw
  exact ⟨k, hk, by decide +kernel, by decide +kernel⟩

end LoadGenerator.Run
