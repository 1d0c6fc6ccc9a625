import LoadGenerator.Scenario.Execute

namespace LoadGenerator

open Http

def SetCookie.ofHeaders (headers : Headers) : List Bytes :=
  (headers.filter (SetCookie.isSetCookie ·.1)).map (·.2)

/-- A request of an execution, and what came back at `takenAt`. -/
structure Exchange where
  step : Step
  request : Request
  reply : Reply
  sentAt : Int
  takenAt : Int

namespace Exchange

def elapsedMs (e : Exchange) : Float := millisBetween e.sentAt e.takenAt

/-- A response came, and none of the assertions fails on it. -/
def Passes (e : Exchange) : Prop :=
  ∃ r, e.reply = .ok r ∧ ∀ a ∈ e.step.assertions, a.check r e.elapsedMs = none

def cookies (e : Exchange) : List Bytes :=
  match e.reply with
  | .error _ => []
  | .ok r => SetCookie.ofHeaders r.headers

def value? (r : Response) (x : Extraction) : Option (Bytes × Bytes) :=
  match x.extractor.apply r with
  | .error _ => none
  | .ok v => some (x.name, v)

/-- The values that the successful extractions find, in their order, if all assertions hold. -/
def values (e : Exchange) : List (Bytes × Bytes) :=
  match e.reply with
  | .error _ => []
  | .ok r =>
    if e.step.assertions.all fun a => (a.check r e.elapsedMs).isNone then
      e.step.extractions.filterMap (value? r)
    else []

def result (e : Exchange) : StepResult :=
  match e.reply with
  | .error err => Execution.failed e.step err e.elapsedMs
  | .ok r => Execution.checked e.step r e.elapsedMs

theorem passes_iff (e : Exchange) : e.result.success = true ↔ e.Passes := by
  unfold Passes result
  cases e.reply with
  | error err => simp [Execution.failed]
  | ok r => simp [Execution.checked, Assertion.checkAll, List.filterMap_eq_nil_iff]

theorem values_eq_nil {e : Exchange} (h : ¬ e.Passes) : e.values = [] := by
  unfold values
  split
  · rfl
  · next r hr =>
    refine if_neg fun hall => h ⟨r, hr, ?_⟩
    simpa using hall

theorem name_result (e : Exchange) : e.result.name = e.step.name := by
  unfold result
  cases e.reply <;> rfl

end Exchange

theorem split_concat {β : Type} {bs before after : List β} {a b : β}
    (h : bs ++ [a] = before ++ b :: after) :
    bs = before ∧ a = b ∨ ∃ after', bs = before ++ b :: after' := by
  rcases List.eq_nil_or_concat after with rfl | ⟨after', last, rfl⟩
  · obtain ⟨rfl, hlast⟩ := List.append_inj' h rfl
    exact .inl ⟨rfl, List.singleton_inj.mp hlast⟩
  · have h' : bs ++ [a] = (before ++ b :: after') ++ [last] := by simpa using h
    exact .inr ⟨after', (List.append_inj' h' rfl).1⟩

theorem CookieJar.update_eq (jar : CookieJar) (headers : Headers) :
    jar.update headers = (SetCookie.ofHeaders headers).foldl CookieJar.set jar := by
  rw [update, SetCookie.ofHeaders]
  induction headers generalizing jar with
  | nil => rfl
  | cons header headers ih =>
    rw [List.foldl_cons, ih]
    by_cases h : SetCookie.isSetCookie header.1 = true
    · simp [h]
    · simp [h]

theorem Extraction.vars_foldl (extractions : List Extraction) (r : Response) (report : Report) :
    (extractions.foldl (step r) report).vars =
      report.vars.load (extractions.filterMap (Exchange.value? r)) := by
  induction extractions generalizing report with
  | nil => rfl
  | cons x extractions ih =>
    rw [List.foldl_cons, ih, Extraction.step]
    cases hx : x.extractor.apply r with
    | error e =>
      have hv : Exchange.value? r x = none := by simp [Exchange.value?, hx]
      rw [List.filterMap_cons_none hv]
    | ok v =>
      have hv : Exchange.value? r x = some (x.name, v) := by simp [Exchange.value?, hx]
      rw [List.filterMap_cons_some hv]
      rfl

theorem Extraction.vars_runAll (extractions : List Extraction) (r : Response) (vars : Variables) :
    (Extraction.runAll extractions r vars).vars =
      vars.load (extractions.filterMap (Exchange.value? r)) := vars_foldl extractions r ⟨vars, 0, []⟩

namespace Execution

def varsAfter (vars : Variables) (es : List Exchange) : Variables :=
  vars.load (es.flatMap Exchange.values)

def jarAfter (jar : CookieJar) (es : List Exchange) : CookieJar :=
  (es.flatMap Exchange.cookies).foldl CookieJar.set jar

section

variable {vars : Variables} {jar : CookieJar} {es : List Exchange}

theorem varsAfter_append (es' : List Exchange) :
    varsAfter vars (es ++ es') = varsAfter (varsAfter vars es) es' := by
  simp only [varsAfter, Variables.load, List.flatMap_append, List.foldl_append]

theorem jarAfter_append (es' : List Exchange) :
    jarAfter jar (es ++ es') = jarAfter (jarAfter jar es) es' := by
  simp only [jarAfter, List.flatMap_append, List.foldl_append]

end

def ask (x : Execution) (vars : Variables) (jar : CookieJar) (es : List Exchange) (step : Step) :
    Request :=
  step.request.build x.baseUrl x.timeoutMs ((varsAfter vars es).substitute x.calendar)
    (jarAfter jar es)

/-- Each request was built from what the exchanges before it had brought. -/
def Asked (x : Execution) (vars : Variables) (jar : CookieJar) (es : List Exchange) : Prop :=
  ∀ before e after, es = before ++ e :: after → e.request = x.ask vars jar before e.step

/-- After the exchanges `es` of an execution of `steps`, and at that time, `d` is asked for. No more
is known of the replies, the clock and the random numbers than that they come. -/
inductive Comes (x : Execution) (steps : List Step) (vars : Variables) (jar : CookieJar) :
    List Exchange → Int → Demand → Prop
  | starts : Comes x steps vars jar [] x.startedAt (x.start steps vars jar)
  | answered {es : List Exchange} {now : Int} {request : Request} {step : Step} {p : Progress}
      (h : Comes x steps vars jar es now (.send request step p)) (reply : Reply) (later : Int)
      (random : Nat) :
      Comes x steps vars jar (es ++ [⟨step, request, reply, now, later⟩]) later
        (x.resume p step reply now later random).1
  | paused {es : List Exchange} {now ms : Int} {p : Progress}
      (h : Comes x steps vars jar es now (.pause ms p)) (later : Int) :
      Comes x steps vars jar es later (x.next p later)

/-- Where an execution stands after the exchanges `es`, with the steps `ahead` still to be sent. -/
structure Stands (steps : List Step) (vars : Variables) (jar : CookieJar) (es : List Exchange)
    (p : Progress) (ahead : List Step) : Prop where
  steps : steps = es.map (·.step) ++ ahead
  vars : p.vars = varsAfter vars es
  jar : p.jar = jarAfter jar es
  done : p.done = (es.map Exchange.result).reverse

/-- How an execution of which `ahead` is left can be over at time `now`. -/
inductive Ends (x : Execution) (es : List Exchange) (ahead : List Step) (now : Int) : Verdict → Prop
  | success (h : ∀ e ∈ es, e.Passes) (ha : ahead = []) : Ends x es ahead now .success
  | failed {before : List Exchange} {e : Exchange} (hes : es = before ++ [e])
      (h : ∀ e ∈ before, e.Passes) (he : ¬ e.Passes) : Ends x es ahead now (.failedAt before.length)
  | interrupted {deadline : Int} (h : ∀ e ∈ es, e.Passes) (hes : es ≠ []) (ha : ahead ≠ [])
      (hd : x.deadline = some deadline) (hn : deadline ≤ now) : Ends x es ahead now .interrupted

inductive Follows (x : Execution) (steps : List Step) (vars : Variables) (jar : CookieJar)
    (es : List Exchange) (now : Int) : Demand → Prop
  | send {step : Step} {p : Progress} (h : Stands steps vars jar es p (step :: p.left))
      (hp : ∀ e ∈ es, e.Passes) :
      Follows x steps vars jar es now (.send (x.ask vars jar es step) step p)
  | pause {ms : Int} {p : Progress} (h : Stands steps vars jar es p p.left)
      (hp : ∀ e ∈ es, e.Passes) : Follows x steps vars jar es now (.pause ms p)
  | finished {verdict : Verdict} {p : Progress} (h : Stands steps vars jar es p p.left)
      (he : Ends x es p.left now verdict) : Follows x steps vars jar es now (.finished verdict p)

section

variable {x : Execution} {steps : List Step} {vars : Variables} {jar : CookieJar}
  {es : List Exchange} {now : Int} {p : Progress} {step : Step} {d : Demand}

theorem follows_next (h : Stands steps vars jar es p p.left) (hp : ∀ e ∈ es, e.Passes) (now : Int) :
    Follows x steps vars jar es now (x.next p now) := by
  unfold next
  cases hleft : p.left with
  | nil => exact .finished h (.success hp hleft)
  | cons step left =>
    dsimp only
    split
    · next hover =>
      obtain ⟨hdone, deadline, hd, hn⟩ :
          p.done ≠ [] ∧ ∃ deadline, x.deadline = some deadline ∧ deadline ≤ now := by
        simpa [isOver, Option.any_eq_true] using hover
      -- the first step is sent even after the deadline
      have hes : es ≠ [] := by
        rintro rfl
        exact hdone h.done
      exact .finished h (.interrupted hp hes (by simp [hleft]) hd hn)
    · have hrequest : x.request step p = x.ask vars jar es step := by
        rw [request, ask, h.vars, h.jar]
      rw [hrequest]
      exact .send ⟨hleft ▸ h.steps, h.vars, h.jar, h.done⟩ hp

theorem stands_receive (h : Stands steps vars jar es p (step :: p.left)) {e : Exchange}
    (he : e.step = step) :
    Stands steps vars jar (es ++ [e]) (receive p step e.reply e.elapsedMs).1 p.left ∧
      (receive p step e.reply e.elapsedMs).2.1 = e.result := by
  subst he
  -- what the exchange adds; the reply decides below which of it is not empty
  have hsteps : steps = (es ++ [e]).map (·.step) ++ p.left := by simp [h.steps]
  have hdone : e.result :: p.done = ((es ++ [e]).map Exchange.result).reverse := by simp [h.done]
  have hvars : Variables.load p.vars e.values = varsAfter vars (es ++ [e]) := by
    rw [varsAfter_append, ← h.vars]
    simp [varsAfter]
  have hjar : e.cookies.foldl CookieJar.set p.jar = jarAfter jar (es ++ [e]) := by
    rw [jarAfter_append, ← h.jar]
    simp [jarAfter]
  unfold receive
  cases hreply : e.reply with
  | error err =>
    have hresult : failed e.step err e.elapsedMs = e.result := by simp [Exchange.result, hreply]
    simp only [Exchange.values, Exchange.cookies, hreply] at hvars hjar
    dsimp only
    rw [hresult]
    exact ⟨⟨hsteps, hvars, hjar, hdone⟩, rfl⟩
  | ok r =>
    have hresult : checked e.step r e.elapsedMs = e.result := by simp [Exchange.result, hreply]
    have hall : (e.step.assertions.all fun a => (a.check r e.elapsedMs).isNone) =
        (checked e.step r e.elapsedMs).success := by
      rw [Bool.eq_iff_iff]
      simp [checked, Assertion.checkAll, List.filterMap_eq_nil_iff]
    simp only [Exchange.values, Exchange.cookies, hreply, hall, ← CookieJar.update_eq] at hvars hjar
    dsimp only
    rw [hresult] at hvars ⊢
    split
    · next hs =>
      rw [if_pos hs, ← Extraction.vars_runAll] at hvars
      exact ⟨⟨hsteps, hvars, hjar, hdone⟩, rfl⟩
    · next hs =>
      rw [if_neg hs] at hvars
      exact ⟨⟨hsteps, hvars, hjar, hdone⟩, rfl⟩

theorem follows_resume (h : Stands steps vars jar es p (step :: p.left)) (hp : ∀ e ∈ es, e.Passes)
    {e : Exchange} (he : e.step = step) (random : Nat) :
    Follows x steps vars jar (es ++ [e]) e.takenAt
      (x.resume p step e.reply e.sentAt e.takenAt random).1 := by
  obtain ⟨h', hresult⟩ := stands_receive h he
  have hleft := left_receive p step e.reply e.elapsedMs
  have hpasses : (receive p step e.reply e.elapsedMs).2.1.success = true ↔ e.Passes := by
    rw [hresult, e.passes_iff]
  rw [resume, ← Exchange.elapsedMs]
  generalize receive p step e.reply e.elapsedMs = received at h' hleft hpasses
  obtain ⟨p', result, lines⟩ := received
  dsimp only at h' hleft hpasses ⊢
  rw [← hleft] at h'
  by_cases hs : e.Passes
  · have hall : ∀ e' ∈ es ++ [e], e'.Passes := by
      simpa [or_imp, forall_and, hs] using hp
    rw [hpasses.mpr hs]
    simp only [Bool.not_true, Bool.false_eq_true, ↓reduceIte]
    split
    · split
      · exact .pause h' hall
      · exact follows_next h' hall _
    · exact follows_next h' hall _
  · have hf : result.success = false := by rw [← Bool.not_eq_true, hpasses]; exact hs
    have hlength : p'.done.length - 1 = es.length := by simp [h'.done]
    rw [hf, hlength]
    exact .finished h' (.failed rfl hp hs)

theorem asked_append (h : Asked x vars jar es) {e : Exchange}
    (he : e.request = x.ask vars jar es e.step) : Asked x vars jar (es ++ [e]) := by
  intro before e' after hes
  obtain ⟨rfl, rfl⟩ | ⟨after', hes'⟩ := split_concat hes
  · exact he
  · exact h before e' after' hes'

/-- The exchanges alone determine what an execution asks for. -/
theorem Comes.follows (h : Comes x steps vars jar es now d) :
    Asked x vars jar es ∧ Follows x steps vars jar es now d := by
  induction h with
  | starts =>
    have h : Stands steps vars jar [] ⟨vars, jar, steps, []⟩ steps := ⟨rfl, rfl, rfl, rfl⟩
    exact ⟨by simp [Asked], follows_next h (by simp) _⟩
  | @answered es now request step p h reply later random ih =>
    obtain ⟨hasked, hfollows⟩ := ih
    cases hfollows with
    | send h hp =>
      let e : Exchange := ⟨step, x.ask vars jar es step, reply, now, later⟩
      exact ⟨asked_append (e := e) hasked rfl, follows_resume (e := e) h hp rfl random⟩
  | paused h later ih =>
    obtain ⟨hasked, hfollows⟩ := ih
    cases hfollows with
    | pause h hp => exact ⟨hasked, follows_next h hp later⟩

theorem Comes.isPrefix (h : Comes x steps vars jar es now d) : es.map (·.step) <+: steps := by
  cases h.follows.2 with
  | send hs hp => exact ⟨_, hs.steps.symm⟩
  | pause hs hp => exact ⟨_, hs.steps.symm⟩
  | finished hs he => exact ⟨_, hs.steps.symm⟩

theorem Comes.steps_result {verdict : Verdict}
    (h : Comes x steps vars jar es now (.finished verdict p)) :
    (x.result verdict p now).steps = es.map Exchange.result := by
  cases h.follows.2 with
  | finished hs he => rw [result, hs.done, List.reverse_reverse]

end

end Execution

end LoadGenerator
