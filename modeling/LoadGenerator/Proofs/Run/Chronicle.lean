import LoadGenerator.Proofs.Run.Interleaving
import Mathlib.Data.List.Forall2

namespace LoadGenerator.Run

open Http Metrics State

variable {α : Type}

/-- What a unit of work is about. -/
inductive Subject (α : Type) where
  | bare (template : RequestTemplate)
  | visit (scenario : Scenario α)
  | nothing

inductive IsResult (step : Step) : StepResult → Prop
  | failed (e : TransportError) (ms : Float) : IsResult step (Execution.failed step e ms)
  | checked (response : Response) (ms : Float) : IsResult step (Execution.checked step response ms)

namespace Subject

def ProvidedBy (plan : Plan α) : Subject α → Prop
  | .bare t => plan.selector = none ∧ plan.request = some t
  | .visit scenario => ∃ selector, plan.selector = some selector ∧ scenario ∈ selector.scenarios
  | .nothing => plan.selector = none ∧ plan.request = none

/-- After `n` requests, the next is `request`; its placeholders and cookies are filled in. -/
def Asks (calendar : Int) (plan : Plan α) (n : Nat) (request : Request) : Subject α → Prop
  | .bare t => n = 0 ∧ request = t.plain plan.baseUrl plan.timeoutMs
  | .visit scenario => ∃ step vars jar, scenario.steps[n]? = some step ∧ request =
      step.request.build plan.baseUrl plan.timeoutMs (Variables.substitute vars calendar) jar
  | .nothing => False

/-- What has come of a unit when it is over after `n` requests. -/
def Yields (n : Nat) (work : Work) : Subject α → Prop
  | .bare t => n = 1 ∧ ∃ reply ms, work = .bare (bareLabel t) reply ms
  | .visit scenario => ∃ result, work = .scenario result ∧ result.name = scenario.name ∧
      List.Forall₂ IsResult (scenario.steps.take n) result.steps
  | .nothing => n = 0 ∧ work = .nothing

end Subject

/-- A unit of work that is under way, and how many of its requests have been sent. -/
structure Errand (α : Type) where
  job : Job α
  subject : Subject α
  sent : Nat

structure Chronicle (α : Type) where
  events : List (Event α)
  recorder : Recorder
  inForce : Edition α
  errands : Nat → Option (Errand α)

namespace Chronicle

def tell (k : Chronicle α) (e : Event α) : Chronicle α := { k with events := e :: k.events }

def give (k : Chronicle α) (i : Nat) (errand? : Option (Errand α)) : Chronicle α :=
  { k with errands := Function.update k.errands i errand? }

theorem errands_give (k : Chronicle α) (i : Nat) (errand? : Option (Errand α)) :
    (k.give i errand?).errands i = errand? := Function.update_self ..

theorem errands_give_of_ne (k : Chronicle α) {i j : Nat} (errand? : Option (Errand α))
    (hj : j ≠ i) : (k.give i errand?).errands j = k.errands j := Function.update_of_ne hj ..

/-- What worker `i` records of an errand, with latencies sampled as its plan says. -/
def account (k : Chronicle α) (i : Nat) (time : Int) (errand : Errand α) (work : Work)
    (reported : List TransportKind) : Account :=
  (Account.ofRecorder k.recorder reported).ofWork time errand.job.edition.plan.sampling i work

def enter (k : Chronicle α) (a : Account) : Chronicle α := { k with recorder := a.recorder }

/-- What can happen next when each unit of work is paced and done under the edition that is in force
when it begins, whatever is published meanwhile. -/
inductive Step [Scalar α] (c : Course α) (k : Chronicle α) : Chronicle α → Prop
  | published (time : Int) (plan : Plan α) :
      Step c k (({ k with inForce := ⟨plan, k.inForce.version + 1⟩ } : Chronicle α).tell
        (.published time (k.inForce.version + 1) plan))
  | begun {i : Nat} (hi : k.errands i = none) (time : Int) :
      Step c k (k.tell (.begun i time k.inForce))
  | parked {i : Nat} (hi : k.errands i = none) {time : Int}
      (hp : Pacing.delay? (rateAt c time k.inForce) c.workers = none) :
      Step c k (k.tell (.paced i time k.inForce none))
  | started {i : Nat} (hi : k.errands i = none) {time : Int} {delayMs : Nat}
      (hp : Pacing.delay? (rateAt c time k.inForce) c.workers = some delayMs) {subject : Subject α}
      (hs : subject.ProvidedBy k.inForce.plan) :
      Step c k ((k.tell (.paced i time k.inForce (some delayMs))).give i
        (some ⟨⟨k.inForce, delayMs⟩, subject, 0⟩))
  | sent {i : Nat} {errand : Errand α} (hi : k.errands i = some errand) (time : Int)
      {request : Request}
      (hr : errand.subject.Asks c.setting.calendar errand.job.edition.plan errand.sent request) :
      Step c k ((k.tell (.sent i time errand.job.edition request)).give i
        (some { errand with sent := errand.sent + 1 }))
  | ended {i : Nat} {errand : Errand α} (hi : k.errands i = some errand) {time : Int} {work : Work}
      (hw : errand.subject.Yields errand.sent work) {reported : List TransportKind}
      (ht : (k.account i time errand work reported).trouble = none) :
      Step c k (((k.tell (.ended i time errand.job work)).enter
        (k.account i time errand work reported)).give i none)
  /-- A worker breaks down over what it records. -/
  | broken {i : Nat} {errand : Errand α} (hi : k.errands i = some errand) {time : Int}
      {work : Work} (hw : errand.subject.Yields errand.sent work) {reported : List TransportKind}
      (ht : (k.account i time errand work reported).trouble ≠ none) :
      Step c k ((k.enter (k.account i time errand work reported)).give i none)
  | abandoned {i : Nat} {errand : Errand α} (hi : k.errands i = some errand) :
      Step c k (k.give i none)
  | shed {r : Recorder} (h : Shed k.recorder r) : Step c k { k with recorder := r }

def Reaches [Scalar α] (c : Course α) : Chronicle α → Chronicle α → Prop :=
  Relation.ReflTransGen (Step c)

end Chronicle

def State.chronicle (s : State α) (errands : Nat → Option (Errand α)) : Chronicle α :=
  ⟨s.journal, s.recorder, s.edition, errands⟩

/-- An execution visits the scenario of its subject under a plan; `n` steps have been answered. -/
structure Visits (c : Course α) (plan : Plan α) (subject : Subject α) (n : Nat) (x : Execution)
    (p : Execution.Progress) (scenario : Scenario α) (done : List Step) : Prop where
  subject : subject = .visit scenario
  steps : scenario.steps = done ++ p.left
  sent : n = done.length
  results : List.Forall₂ IsResult done p.done.reverse
  name : x.name = scenario.name
  baseUrl : x.baseUrl = plan.baseUrl
  timeoutMs : x.timeoutMs = plan.timeoutMs
  calendar : x.calendar = c.setting.calendar

def Underway (c : Course α) (plan : Plan α) (subject : Subject α) (n : Nat) (x : Execution)
    (p : Execution.Progress) : Prop := ∃ scenario done, Visits c plan subject n x p scenario done

def Purpose.Fits (c : Course α) (plan : Plan α) (subject : Subject α) (n : Nat) : Purpose → Prop
  | .bare label => n = 0 ∧ ∃ t, subject = .bare t ∧ label = bareLabel t
  | .step x p asked => Underway c plan subject n x { p with left := asked :: p.left }

/-- After `n` requests, an act serves the subject of its unit. -/
def Act.Fits (c : Course α) (plan : Plan α) (subject : Subject α) (n : Nat) : Act → Prop
  | .send request purpose =>
    subject.Asks c.setting.calendar plan n request ∧ purpose.Fits c plan subject n
  | .think _ x p => Underway c plan subject n x p
  | .complete _ work => subject.Yields n work
  | .stop _ => True

def Phase.Fits (c : Course α) (errand : Errand α) : Phase α → Prop
  | .sending job purpose _ _ => job = errand.job ∧
      ∃ n, errand.sent = n + 1 ∧ purpose.Fits c errand.job.edition.plan errand.subject n
  | .thinking job x p =>
    job = errand.job ∧ Underway c errand.job.edition.plan errand.subject errand.sent x p
  | _ => False

def OnErrand (c : Course α) (w : Worker α) : Option (Errand α) → Prop
  | none => w.job? = none
  | some errand => w.phase.Fits c errand

section

variable {c : Course α} {plan : Plan α} {subject : Subject α} {n : Nat} {x : Execution}
  {p : Execution.Progress}

theorem fits_finished (h : Underway c plan subject n x p) (verdict : Verdict) (now : Int) :
    (Act.ofDemand x now (.finished verdict p)).Fits c plan subject n := by
  obtain ⟨scenario, done, h⟩ := h
  show subject.Yields n _
  rw [h.subject]
  refine ⟨_, rfl, h.name, ?_⟩
  rw [h.steps, h.sent, List.take_left]
  exact h.results

theorem fits_next (h : Underway c plan subject n x p) (now : Int) :
    (Act.ofDemand x now (x.next p now)).Fits c plan subject n := by
  rw [Execution.next]
  cases hl : p.left with
  | nil => exact fits_finished h _ now
  | cons step left =>
    by_cases hover : x.isOver p now = true
    · simp only [hover, if_true]
      exact fits_finished h _ now
    · simp only [hover, Bool.false_eq_true, if_false]
      obtain ⟨scenario, done, h⟩ := h
      constructor
      · rw [h.subject]
        refine ⟨step, p.vars, p.jar, ?_, ?_⟩
        · simp [h.steps, hl, h.sent]
        · rw [Execution.request, h.baseUrl, h.timeoutMs, h.calendar]
      · refine ⟨scenario, done, ?_⟩
        rw [← hl]
        exact h

theorem isResult_receive (p : Execution.Progress) (step : Step) (reply : Reply) (ms : Float) :
    ∃ result, (Execution.receive p step reply ms).1.done = result :: p.done ∧
      IsResult step result := by
  unfold Execution.receive
  cases reply with
  | error e => exact ⟨_, rfl, .failed e ms⟩
  | ok response =>
    dsimp only
    split
    · exact ⟨_, rfl, .checked response ms⟩
    · exact ⟨_, rfl, .checked response ms⟩

theorem underway_receive {step : Step}
    (h : Underway c plan subject n x { p with left := step :: p.left }) (reply : Reply)
    (ms : Float) : Underway c plan subject (n + 1) x (Execution.receive p step reply ms).1 := by
  obtain ⟨scenario, done, h⟩ := h
  obtain ⟨result, hdone, hresult⟩ := isResult_receive p step reply ms
  refine ⟨scenario, done ++ [step], { h with steps := ?_, sent := ?_, results := ?_ }⟩
  · rw [h.steps, Execution.left_receive, List.append_assoc]
    rfl
  · rw [h.sent, List.length_append]
    rfl
  · rw [hdone, List.reverse_cons]
    exact List.rel_append h.results (.cons hresult .nil)

theorem fits_resume {step : Step}
    (h : Underway c plan subject n x { p with left := step :: p.left }) (reply : Reply)
    (sentAt now : Int) (random : Nat) :
    (Act.ofDemand x now (x.resume p step reply sentAt now random).1).Fits c plan subject
      (n + 1) := by
  have h' := underway_receive h reply (millisBetween sentAt now)
  rw [Execution.resume]
  dsimp only
  split
  · exact fits_finished h' _ now
  · split
    · split
      · exact h'
      · exact fits_next h' now
    · exact fits_next h' now

theorem fits_of_goesOn {errand : Errand α} {now : Int} {w : Worker α} {job : Job α} {act : Act}
    (h : GoesOn now w job act) (hw : w.phase.Fits c errand) :
    job = errand.job ∧ act.Fits c errand.job.edition.plan errand.subject errand.sent := by
  cases h with
  | broken hp ha =>
    rw [hp] at hw
    exact ⟨hw.1, trivial⟩
  | bare hp ha =>
    rw [hp] at hw
    obtain ⟨hjob, n, hn, rfl, t, ht, hlabel⟩ := hw
    refine ⟨hjob, ?_⟩
    rw [ht, hlabel]
    exact ⟨hn, _, _, rfl⟩
  | step hp ha random =>
    rw [hp] at hw
    obtain ⟨hjob, n, hn, hunder⟩ := hw
    rw [hn]
    exact ⟨hjob, fits_resume hunder _ _ _ _⟩
  | thought hp =>
    rw [hp] at hw
    exact ⟨hw.1, fits_next hw.2 now⟩

theorem job?_of_fits {errand : Errand α} {w : Worker α} (h : w.phase.Fits c errand) :
    w.job? = some errand.job := by
  unfold Worker.job?
  cases hp : w.phase with
  | sending job purpose sentAt answer =>
    rw [hp] at h
    exact congrArg some h.1
  | thinking job x p =>
    rw [hp] at h
    exact congrArg some h.1
  | _ =>
    rw [hp] at h
    exact h.elim

theorem OnErrand.job? {w : Worker α} {errand? : Option (Errand α)} (h : OnErrand c w errand?) :
    w.job? = errand?.map (·.job) := by
  cases errand? with
  | none => exact h
  | some errand => exact job?_of_fits h

variable [Scalar α]

theorem fits_of_opens {now : Int} {jar : CookieJar} {e : Edition α} {act : Act}
    (h : Opens c now jar e act) :
    ∃ subject : Subject α, subject.ProvidedBy e.plan ∧ act.Fits c e.plan subject 0 := by
  cases h with
  | @scenario selector h random row x hx =>
    subst hx
    refine ⟨.visit (selector.selectAt (Selector.point random)), ⟨selector, h, ?_⟩, ?_⟩
    · exact List.get_mem _ _
    · exact fits_next ⟨_, [], rfl, rfl, rfl, .nil, rfl, rfl, rfl, rfl⟩ now
  | @bare t h ht => exact ⟨.bare t, ⟨h, ht⟩, ⟨rfl, rfl⟩, rfl, t, rfl, rfl⟩
  | nothing h ht => exact ⟨.nothing, ⟨h, ht⟩, rfl, rfl⟩

end

/-- Worker `i` takes the chronicle from `k` to `k'`, and leaves `t` behind. -/
structure Writes [Scalar α] (c : Course α) (i : Nat) (k k' : Chronicle α) (t : Trace α) : Prop where
  reaches : Chronicle.Reaches c k k'
  events : k'.events = t.events ++ k.events
  recorder : k'.recorder = t.recorder
  inForce : k'.inForce = k.inForce
  others : ∀ j ≠ i, k'.errands j = k.errands j
  self : OnErrand c t.worker (k'.errands i)

section

variable {c : Course α} {w w' : Worker α} {errand? : Option (Errand α)}

theorem OnErrand.none_of_job? (h : OnErrand c w errand?) (hw : w.job? = none) : errand? = none := by
  rw [h.job?] at hw
  simpa using hw

theorem onErrand_give (k : Chronicle α) (i : Nat) (h : OnErrand c w errand?) :
    OnErrand c w ((k.give i errand?).errands i) := by
  rw [k.errands_give]
  exact h

theorem job?_of_atHead {now : Int} (h : AtHead now w w') : w.job? = none := by
  cases h with
  | pausing hp => simp only [Worker.job?, hp]
  | parked hp => simp only [Worker.job?, hp]

end

section

variable [Scalar α] {c : Course α} {k k' : Chronicle α} {i : Nat} {s s₁ s' : State α}
  {w : Worker α} {t : Trace α}

theorem exists_writes_trace {errand : Errand α} {act : Act}
    (ha : act.Fits c errand.job.edition.plan errand.subject errand.sent)
    (hr : k.recorder = s.recorder) (hi : k.errands i = some errand) :
    ∃ k', Writes c i k k' (act.trace c i s w errand.job) := by
  cases act with
  | send request purpose =>
    obtain ⟨hask, hpurpose⟩ := ha
    exact ⟨_, .single (.sent hi s.now hask), rfl, hr, rfl,
      fun _ => Chronicle.errands_give_of_ne _ _, onErrand_give _ i ⟨rfl, errand.sent, rfl, hpurpose⟩⟩
  | think ms x p =>
    refine ⟨k, .refl, rfl, hr, rfl, fun _ _ => rfl, ?_⟩
    rw [hi]
    exact ⟨rfl, ha⟩
  | complete jar work =>
    rw [Act.trace, ← hr]
    dsimp only
    split
    · next message htrouble =>
      have ht : (k.account i s.now errand work w.reported).trouble ≠ none :=
        Option.ne_none_iff_exists'.mpr ⟨message, htrouble⟩
      exact ⟨_, .single (.broken hi ha ht), rfl, rfl, rfl,
        fun _ => Chronicle.errands_give_of_ne _ _, onErrand_give _ i rfl⟩
    · next htrouble =>
      have ht : (k.account i s.now errand work w.reported).trouble = none := htrouble
      exact ⟨_, .single (.ended hi ha ht), rfl, rfl, rfl,
        fun _ => Chronicle.errands_give_of_ne _ _, onErrand_give _ i rfl⟩
  | stop message =>
    exact ⟨_, .single (.abandoned hi), rfl, hr, rfl,
      fun _ => k.errands_give_of_ne _, onErrand_give _ i rfl⟩

theorem exists_writes_of_moves (hm : Moves c i s w t)
    (hd : ∀ e, w.edition = some e → e.version < s.channel.version ∨ e = s.edition)
    {errands : Nat → Option (Errand α)} (hw : OnErrand c w (errands i)) :
    ∃ k', Writes c i (s.chronicle errands) k' t := by
  have htaken {w' : Worker α} (h : AtHead s.now w w') : taken s i w' = s.edition :=
    taken_eq (edition_of_atHead h ▸ hd)
  have hrests {v : Worker α} (hi : errands i = none) (hv : v.job? = none) :
      OnErrand c v (errands i) := by
    rw [hi]
    exact hv
  cases hm with
  | begins hp hf =>
    have hi : errands i = none := hw.none_of_job? (by simp only [Worker.job?, hp])
    exact ⟨_, .single (.begun hi s.now), rfl, rfl, rfl, fun _ _ => rfl, hrests hi rfl⟩
  | leaves hhead hdead =>
    have hi : errands i = none := hw.none_of_job? (job?_of_atHead hhead)
    exact ⟨s.chronicle errands, .refl, rfl, rfl, rfl, fun _ _ => rfl, hrests hi rfl⟩
  | parks hhead hdead he hp =>
    have hi : errands i = none := hw.none_of_job? (job?_of_atHead hhead)
    rw [htaken hhead] at he
    subst he
    exact ⟨_, .single (.parked hi hp), rfl, rfl, rfl, fun _ _ => rfl, hrests hi rfl⟩
  | @starts w' hhead hdead e he delayMs hp act ha =>
    have hi : errands i = none := hw.none_of_job? (job?_of_atHead hhead)
    rw [htaken hhead] at he
    subst he
    -- the errand is given first, and what the worker does at once belongs to it
    obtain ⟨subject, hs, hfits⟩ := fits_of_opens ha
    let errand : Errand α := ⟨⟨s.edition, delayMs⟩, subject, 0⟩
    let k : Chronicle α := ((s.chronicle errands).tell
      (.paced i s.now s.edition (some delayMs))).give i (some errand)
    have hstart : Chronicle.Step c (s.chronicle errands) k :=
      .started (k := s.chronicle errands) hi hp hs
    have hk : k.errands i = some errand := Chronicle.errands_give ..
    obtain ⟨k', h⟩ := exists_writes_trace (s := s) (w := { w' with edition := some s.edition })
      hfits rfl hk
    refine ⟨k', .head hstart h.reaches, ?_, h.recorder, h.inForce, fun j hj => ?_, h.self⟩
    · rw [h.events, Trace.after, List.append_assoc]
      rfl
    · exact (h.others j hj).trans (Chronicle.errands_give_of_ne _ _ hj)
  | @goesOn job act hg =>
    cases hi : errands i with
    | none =>
      rw [hi] at hw
      cases hg.job.symm.trans hw
    | some errand =>
      rw [hi] at hw
      obtain ⟨rfl, ha⟩ := fits_of_goesOn hg hw
      exact exists_writes_trace ha rfl hi

theorem reaches_news {e : Edition α} {news : List (Event α)} (h : Published k.inForce news e) :
    Chronicle.Reaches c k { k with events := news ++ k.events, inForce := e } := by
  induction h with
  | nothing => exact .refl
  | next _ time plan ih => exact ih.tail (.published time plan)

/-- From `k` on, the chronicle has come to a state whose workers are on their errands. -/
def Chronicled (c : Course α) (k : Chronicle α) (s : State α) : Prop :=
  ∃ errands, Chronicle.Reaches c k (s.chronicle errands) ∧
    ∀ i w, s.workers[i]? = some w → OnErrand c w (errands i)

theorem Chronicled.of_eq (h : Chronicled c k s) (hj : s'.journal = s.journal)
    (hr : s'.recorder = s.recorder) (hc : s'.channel = s.channel) (hw : s'.workers = s.workers) :
    Chronicled c k s' := by
  obtain ⟨errands, hk, he⟩ := h
  refine ⟨errands, ?_, hw ▸ he⟩
  rw [State.chronicle, hj, hr, edition, hc]
  exact hk

theorem Chronicled.announce (h : Chronicled c k s) (plan : Plan α) :
    Chronicled c k (s.announce plan) := by
  obtain ⟨errands, hk, he⟩ := h
  exact ⟨errands, hk.tail (.published s.now plan), he⟩

theorem Chronicled.guard (h : Chronicled c k s) : Chronicled c k (s.resumeGuard c) := by
  obtain ⟨errands, hk, he⟩ := h
  have hg := tends_resumeGuard c s
  obtain ⟨news, hp, hj⟩ := hg.records
  have hnews := hk.trans (reaches_news (k := s.chronicle errands) hp)
  refine ⟨errands, ?_, fun i w hw => he i w ?_⟩
  · rw [State.chronicle, hj, List.append_nil]
    exact hnews.tail (.shed hg.shed)
  · rw [← hg.only.worker i (by simp)]
    exact hw

theorem Chronicled.worker (h : Chronicled c k s) (hw : s.workers[i]? = some w)
    (hm : Moves c i s w t) (hl : Leads c i s s' t)
    (hd : ∀ e, w.edition = some e → e.version < s.channel.version ∨ e = s.edition) :
    Chronicled c k s' := by
  obtain ⟨errands, hk, he⟩ := h
  -- what it does is written down first, then what was published meanwhile
  obtain ⟨k', hwrites⟩ := exists_writes_of_moves hm hd (he i w hw)
  obtain ⟨news, hp, hj⟩ := hl.records
  have hforce : k'.inForce = s.edition := hwrites.inForce
  have hevents : k'.events = t.events ++ s.journal := hwrites.events
  refine ⟨k'.errands, (hk.trans hwrites.reaches).trans ?_, fun j v hv => ?_⟩
  · rw [State.chronicle, hj, hl.recorder, ← hwrites.recorder, List.append_assoc, ← hevents]
    exact reaches_news (hforce ▸ hp)
  · by_cases hij : j = i
    · subst hij
      cases hl.standing.worker.symm.trans hv
      exact hwrites.self
    · have hne : Actor.worker i ≠ .worker j := fun h => hij (Actor.worker.inj h).symm
      rw [hwrites.others j hij]
      exact he j v ((hl.only.worker j hne).symm.trans hv)

theorem Chronicled.resume {m : Scene α} (h : Chronicled c k m.state) (hm : Attuned m) {a : Actor}
    (ht : Turn a m.state s₁) : Chronicled c k (s₁.resume c a) := by
  have h₁ : Chronicled c k s₁ := h.of_eq ht.journal ht.recorder ht.channel ht.workers
  cases a with
  | guard => exact h₁.guard
  | worker i =>
    cases hi : m.state.workers[i]? with
    | none =>
      rw [Local.resume_nobody ht hi]
      exact h₁
    | some w =>
      obtain ⟨t, hmoves, hl⟩ := hm.holds.exists_leads (c := c) ht hi
      refine h₁.worker (ht.workers ▸ hi) hmoves hl ?_
      rw [edition, ht.channel]
      exact (hm.told.informed i w hi).dated

theorem Chronicled.step {m m' : Scene α} (h : Chronicled c k m.state) (hm : Attuned m)
    (hs : Happens c m m') : Chronicled c k m'.state := by
  cases hs with
  | elapses _ => exact h.of_eq rfl rfl rfl rfl
  | @performs s calls pre rest task hr =>
    cases task with
    | resume a => exact h.resume hm (turn_called hm.holds.inOrder hr)
    | wake j =>
      let s₁ : State α := { s with ready := pre ++ rest }
      have h₁ : Chronicled c k s₁ := h.of_eq rfl rfl rfl rfl
      show Chronicled c k (s₁.wake j)
      obtain ⟨hc, hw⟩ := channel_wake s₁ j
      exact h₁.of_eq (journal_wake s₁ j).1 (journal_wake s₁ j).2 hc hw
  | expires _ _ => exact h.of_eq rfl rfl rfl rfl
  | announces plan => exact h.announce plan
  | asks => exact h.of_eq rfl rfl rfl rfl

/-- In every order of publishes and turns, each unit of work is paced and done under the plan that
was published last before it began. -/
theorem exists_chronicle {channel : Channel (Plan α) Unit} {r : Recorder} {m : Scene α}
    (h : Interleaved c channel r m) : ∃ errands,
    Chronicle.Reaches c ((c.start channel r).chronicle fun _ => none) (m.state.chronicle errands) ∧
      ∀ i w, m.state.workers[i]? = some w → w.job? = (errands i).map (·.job) := by
  have hk : Chronicled c ((c.start channel r).chronicle fun _ => none) m.state := by
    induction h with
    | start =>
      refine ⟨_, .refl, fun i w hw => ?_⟩
      obtain ⟨-, rfl⟩ : i < c.workers ∧ Worker.fresh c.startedAt = w := by
        simpa [Course.start, List.getElem?_replicate] using hw
      rfl
    | step h hs ih => exact ih.step (attuned h) hs
  obtain ⟨errands, hreaches, hhas⟩ := hk
  exact ⟨errands, hreaches, fun i w hw => (hhas i w hw).job?⟩

end

def moved : Setting Rat :=
  { (Setting.ofClient (steady 1000000) : Setting Rat) with
    news := [(.request 0, { visits with baseUrl := [2] })] }

theorem exists_chronicle_moved : ∃ (m : Scene Rat) (errands : Nat → Option (Errand Rat)),
    Chronicle.Reaches (.ofPlan moved visits 0)
      (((Course.ofPlan moved visits 0).start (.ofPlan visits) (.create 1 false 0)).chronicle
        fun _ => none) (m.state.chronicle errands) ∧
      m.state.channel.version = 2 ∧
      m.state.requests.map (·.2.url) =
        [visits.baseUrl ++ [47], visits.baseUrl ++ [47], [2, 47], [2, 47]] ∧
      (errands 1).map (·.job.edition.version) = some 2 := by
  have hs := reachable_stateAt moved (.ofPlan visits) (.create 1 false 0) 0 12
  obtain ⟨errands, hk, hjob⟩ := exists_chronicle hs.interleaved
  refine ⟨_, errands, hk, by decide +kernel, by decide +kernel, ?_⟩
  have hv : ((stateAt moved (.ofPlan visits) (.create 1 false 0) 0 12).workers[1]?.bind
      Worker.job?).map (·.edition.version) = some 2 := by decide +kernel
  obtain ⟨job, hbind, hversion⟩ := Option.map_eq_some_iff.mp hv
  obtain ⟨w, hw, hwj⟩ := Option.bind_eq_some_iff.mp hbind
  have herrand := (hjob 1 w hw).symm.trans hwj
  obtain ⟨errand, he, rfl⟩ := Option.map_eq_some_iff.mp herrand
  rw [he]
  exact congrArg some hversion

end LoadGenerator.Run
