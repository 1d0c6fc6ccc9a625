import LoadGenerator.Proofs.Scenario.Exchange
import LoadGenerator.Scenario.Rehearsal
import Mathlib.Data.List.Forall2

namespace LoadGenerator

open Http

structure Exchange.Reports (e : Exchange) (r : StepResult) : Prop where
  name : r.name = e.step.name
  elapsedMs : r.elapsedMs = e.elapsedMs
  success : r.success = true ↔ ∃ response, e.reply = .ok response ∧ r.failures = []
  answered : ∀ response, e.reply = .ok response → r.status = some response.status ∧
    r.transportError = none ∧ r.passed + r.failures.length = e.step.assertions.length ∧
    r.failures = e.step.assertions.filterMap (·.check response e.elapsedMs)
  unanswered : ∀ err, e.reply = .error err →
    r.status = none ∧ r.transportError = some err ∧ r.passed + r.failures.length = 0

namespace Execution

/-- The result `r` of an execution of `steps` that had the exchanges `es` and was over at `now`. -/
structure Accounts (x : Execution) (steps : List Step) (es : List Exchange) (now : Int)
    (r : ScenarioResult) : Prop where
  sent : es.map (·.step) <+: steps
  reports : List.Forall₂ Exchange.Reports es r.steps
  names : r.steps.map (·.name) <+: steps.map (·.name)
  one : r.success.toNat + r.failedAt?.isSome.toNat + r.interrupted.toNat = 1
  success : r.success = true ↔
    r.steps.length = steps.length ∧ ∀ result ∈ r.steps, result.success = true
  failedAt : ∀ k, r.failedAt? = some k ↔ r.steps.length = k + 1 ∧
    (r.steps[k]?.map (·.success)) = some false ∧ ∀ result ∈ r.steps.take k, result.success = true
  interrupted : r.interrupted = true → ∃ deadline, x.deadline = some deadline ∧ deadline ≤ now ∧
    1 ≤ r.steps.length ∧ r.steps.length < steps.length ∧
    ∀ result ∈ r.steps, result.success = true

theorem reports_result (e : Exchange) : e.Reports e.result := by
  cases h : e.reply with
  | error err => constructor <;> simp [Exchange.result, h, failed]
  | ok r =>
    have hle := List.length_filterMap_le (·.check r e.elapsedMs) e.step.assertions
    constructor <;> simp [Exchange.result, h, checked, Assertion.checkAll]
    omega

variable {x : Execution} {steps : List Step} {vars : Variables} {jar : CookieJar}
  {es : List Exchange} {now : Int} {p : Progress} {verdict : Verdict}

theorem reports_results (es : List Exchange) :
    List.Forall₂ Exchange.Reports es (es.map Exchange.result) := by
  induction es with
  | nil => exact .nil
  | cons e es ih => exact .cons (reports_result e) ih

theorem all_success_iff (es : List Exchange) :
    (∀ result ∈ es.map Exchange.result, result.success = true) ↔ ∀ e ∈ es, e.Passes := by
  simp [Exchange.passes_iff]

theorem ne_some_false {es : List Exchange} (h : ∀ e ∈ es, e.Passes) (k : Nat) :
    ((es.map Exchange.result)[k]?.map (·.success)) ≠ some false := by
  intro hk
  obtain ⟨result, hresult, hf⟩ := Option.map_eq_some_iff.mp hk
  have hs := (all_success_iff es).mpr h result (List.mem_of_getElem? hresult)
  rw [hs] at hf
  cases hf

theorem failedAt_iff {before : List Exchange} {e : Exchange} (h : ∀ e ∈ before, e.Passes)
    (he : ¬ e.Passes) (k : Nat) : before.length = k ↔
      ((before ++ [e]).map Exchange.result).length = k + 1 ∧
      (((before ++ [e]).map Exchange.result)[k]?.map (·.success)) = some false ∧
      ∀ result ∈ ((before ++ [e]).map Exchange.result).take k, result.success = true := by
  have hf : e.result.success = false := by rwa [← Bool.not_eq_true, e.passes_iff]
  constructor
  · rintro rfl
    refine ⟨by simp, by simp [hf], ?_⟩
    rw [List.map_append, List.take_left' (List.length_map _)]
    exact (all_success_iff before).mpr h
  · rintro ⟨hlength, -⟩
    simpa using hlength

theorem accounts_of_ends {ahead : List Step} (hsteps : steps = es.map (·.step) ++ ahead)
    (he : Ends x es ahead now verdict) {r : ScenarioResult} (hv : r.verdict = verdict)
    (hr : r.steps = es.map Exchange.result) : Accounts x steps es now r where
  sent := hsteps ▸ List.prefix_append _ _
  reports := hr ▸ reports_results es
  names := by
    have hnames : r.steps.map (·.name) = (es.map (·.step)).map (·.name) := by
      simp [hr, Exchange.name_result]
    rw [hnames, hsteps, List.map_append]
    exact List.prefix_append _ _
  one := by
    rw [ScenarioResult.success, ScenarioResult.failedAt?, ScenarioResult.interrupted, hv]
    cases verdict <;> rfl
  success := by
    rw [hr, all_success_iff, ScenarioResult.success, hv, hsteps]
    cases he with
    | success h ha => simpa [ha] using h
    | failed hes h he => simp [hes, he]
    | interrupted h hes ha hd hn => simp [ha]
  failedAt k := by
    rw [hr, ScenarioResult.failedAt?, hv]
    cases he with
    | success h ha => exact ⟨nofun, fun hk => (ne_some_false h k hk.2.1).elim⟩
    | failed hes h he =>
      rw [Option.some.injEq, hes]
      exact failedAt_iff h he k
    | interrupted h hes ha hd hn => exact ⟨nofun, fun hk => (ne_some_false h k hk.2.1).elim⟩
  interrupted hi := by
    rw [ScenarioResult.interrupted, hv] at hi
    cases he with
    | success h ha => cases hi
    | failed hes h he => cases hi
    | @interrupted deadline h hes ha hd hn =>
      have hlen : 0 < es.length := List.length_pos_iff.mpr hes
      have hlen' : 0 < ahead.length := List.length_pos_iff.mpr ha
      rw [hr, all_success_iff, hsteps]
      simp only [List.length_map, List.length_append]
      exact ⟨deadline, hd, hn, hlen, by omega, h⟩

theorem Comes.accounts (h : Comes x steps vars jar es now (.finished verdict p)) :
    Accounts x steps es now (x.result verdict p now) := by
  have hdone := h.steps_result
  cases h.follows.2 with
  | finished hs he => exact accounts_of_ends hs.steps he rfl hdone

end Execution

def Exchange.sending (e : Exchange) : Int × Request := (e.sentAt, e.request)

namespace Rehearsal

/-- The replies come from the client, which has had `n` requests before, and after the time that it
takes. -/
def Answers (client : Client) (n : Nat) (es : List Exchange) : Prop :=
  ∀ (k : Nat) (e : Exchange), es[k]? = some e → (client (n + k) e.request).reply = .ok e.reply ∧
    e.takenAt = e.sentAt + (client (n + k) e.request).latency

theorem answers_append {client : Client} {n : Nat} {es : List Exchange} (h : Answers client n es)
    {e : Exchange} (hr : (client (n + es.length) e.request).reply = .ok e.reply)
    (ht : e.takenAt = e.sentAt + (client (n + es.length) e.request).latency) :
    Answers client n (es ++ [e]) := by
  intro k e' hk
  rcases Nat.lt_or_ge k es.length with hlt | hge
  · rw [List.getElem?_append_left hlt] at hk
    exact h k e' hk
  · rw [List.getElem?_append_right hge, List.getElem?_singleton] at hk
    split at hk
    · next hzero =>
      cases hk
      obtain rfl : k = es.length := by omega
      exact ⟨hr, ht⟩
    · cases hk

variable {α : Type}

theorem finish_comes (t : Script α) {x : Execution} {steps : List Step} {vars : Variables}
    {jar : CookieJar} {n : Nat} (d : Execution.Demand) (requests : List (Int × Request))
    (r : Rehearsal) {es : List Exchange} (h : x.Comes steps vars jar es r.now d)
    (hr : requests = (es.map Exchange.sending).reverse) (hn : r.sent = n + es.length)
    (ha : Answers t.client n es) :
    (∃ q r' es' verdict p, finish t x d requests r = .ok (q, r') ∧
      x.Comes steps vars jar es' r'.now (.finished verdict p) ∧
      q = ⟨x.result verdict p r'.now, es'.map Exchange.sending, p.vars, p.jar⟩ ∧
      Answers t.client n es') ∨
    ∃ message k request, finish t x d requests r = .error message ∧
      (t.client k request).reply = .error message := by
  fun_induction finish t x d requests r generalizing es with
  | case1 requests r verdict p =>
    rw [hr, List.reverse_reverse]
    exact .inl ⟨_, _, es, verdict, p, rfl, h, rfl, ha⟩
  | case2 requests r ms p now =>
    rename_i ih
    exact ih (.paused h now) hr hn ha
  | case3 requests r request step p answer message =>
    rename_i hreply
    exact .inr ⟨message, r.sent, request, rfl, hreply⟩
  | case4 requests r request step p answer reply hreply now resumed =>
    rename_i ih
    let e : Exchange := ⟨step, request, reply, r.now, now⟩
    have ha' : Answers t.client n (es ++ [e]) := answers_append ha (hn ▸ hreply) (hn ▸ rfl)
    exact ih (.answered h reply now (t.random r.sent)) (by simp [hr, Exchange.sending])
      (by simp [hn, Nat.add_assoc]) ha'

/-- Whatever the client replies and however the clock goes, an execution that is over has a result
that accounts for it; and it comes to its end unless the client breaks down. -/
theorem outcome_accounts (t : Script α) (r : Rehearsal) :
    (∀ es now verdict p,
      (r.execution t).Comes t.scenario.steps (t.vars.load (r.row t)) r.jar es now
        (.finished verdict p) →
      (r.execution t).Accounts t.scenario.steps es now
        ((r.execution t).result verdict p now)) ∧
    ((∃ q r' es, perform t r = .ok (q, r') ∧ q.requests = es.map Exchange.sending ∧
        Answers t.client r.sent es ∧
        (r.execution t).Accounts t.scenario.steps es r'.now q.result) ∨
      ∃ message k request, perform t r = .error message ∧
        (t.client k request).reply = .error message) := by
  refine ⟨fun es now verdict p h => h.accounts, ?_⟩
  have hstart : (r.execution t).Comes t.scenario.steps (t.vars.load (r.row t)) r.jar [] r.now _ :=
    .starts
  have hanswers : Answers t.client r.sent [] := by simp [Answers]
  obtain ⟨q, r', es, verdict, p, hok, hcomes, rfl, ha⟩ | herror :=
    finish_comes t _ [] { r with dealt := r.dealt + 1 } hstart rfl rfl hanswers
  · exact .inl ⟨_, r', es, hok, rfl, ha, hcomes.accounts⟩
  · exact .inr herror

def hasty : Script Rat :=
  let step : Step := ⟨[97], ⟨[71], [47], none, []⟩, [], [.statusCode 200], none, none⟩
  { scenario := ⟨[], 1, [step, { step with name := [98] }], none⟩
    baseUrl := [104]
    timeoutMs := 1000
    calendar := 0
    vars := []
    limit := some 5
    client := fun _ _ => ⟨6, .ok (.ok ⟨200, [], []⟩)⟩
    random := fun _ => 0 }

theorem outcome_accounts_hasty : ∃ e p,
    ((start []).execution hasty).Comes hasty.scenario.steps (hasty.vars.load []) [] [e] 6
      (.finished .interrupted p) ∧
    ((start []).execution hasty).Accounts hasty.scenario.steps [e] 6
      (((start []).execution hasty).result .interrupted p 6) ∧
    p.left.map (·.name) = [[98]] := by
  let x := (start []).execution hasty
  have hstart : x.Comes hasty.scenario.steps (hasty.vars.load []) [] [] 0 _ := .starts
  have hend : x.Comes hasty.scenario.steps (hasty.vars.load []) [] [_] 6
      (.finished .interrupted _) := .answered hstart (.ok ⟨200, [], []⟩) 6 0
  exact ⟨_, _, hend, (outcome_accounts hasty (start [])).1 _ _ _ _ hend, rfl⟩

end Rehearsal

end LoadGenerator
