import LoadGenerator.Proofs.Run.Local
import LoadGenerator.Scalar.Rational

namespace LoadGenerator.Run

open Http State

variable {α : Type}

def Event.SentBefore (deadline : Int) : Event α → Prop
  | .sent _ time _ _ => time < deadline
  | _ => True

def Purpose.Within (deadline : Int) : Purpose → Prop
  | .bare _ => True
  | .step x _ _ => x.deadline = some deadline

/-- A unit that is under way is cut short at the deadline, and one that has been paused has sent its
first request. -/
def Phase.Within (deadline : Int) : Phase α → Prop
  | .sending _ purpose _ _ => purpose.Within deadline
  | .thinking _ x p => x.deadline = some deadline ∧ p.done ≠ []
  | _ => True

def Act.Within (deadline now : Int) : Act → Prop
  | .send _ purpose => now < deadline ∧ purpose.Within deadline
  | .think _ x p => x.deadline = some deadline ∧ p.done ≠ []
  | _ => True

section

variable {x : Execution} {p : Execution.Progress} {deadline : Int}

theorem within_next (now : Int) (hx : x.deadline = some deadline) (h : now < deadline ∨ p.done ≠ []) :
    (Act.ofDemand x now (x.next p now)).Within deadline now := by
  rw [Execution.next]
  cases p.left with
  | nil => trivial
  | cons step left =>
    by_cases hover : x.isOver p now = true
    · simp only [hover, if_true]
      trivial
    · simp only [hover, Bool.false_eq_true, if_false]
      refine ⟨?_, hx⟩
      rcases h with h | h
      · exact h
      · simpa [Execution.isOver, hx, h] using hover

theorem done_receive_ne_nil (step : Step) (reply : Reply) (ms : Float) :
    (Execution.receive p step reply ms).1.done ≠ [] := by
  unfold Execution.receive
  cases reply with
  | error e => simp
  | ok r =>
    dsimp only
    split <;> simp

theorem within_resume (hx : x.deadline = some deadline) (step : Step) (reply : Reply)
    (sentAt now : Int) (random : Nat) :
    (Act.ofDemand x now (x.resume p step reply sentAt now random).1).Within deadline now := by
  have hdone := done_receive_ne_nil (p := p) step reply (millisBetween sentAt now)
  have hnext := within_next now hx (.inr hdone)
  rw [Execution.resume]
  dsimp only
  split
  · trivial
  · split
    · split
      · exact ⟨hx, hdone⟩
      · exact hnext
    · exact hnext

end

section

variable {c : Course α} {i : Nat} {s : State α} {w : Worker α} {job : Job α} {act : Act}

theorem within_of_goesOn {deadline now : Int} (h : GoesOn now w job act)
    (hw : w.phase.Within deadline) : act.Within deadline now := by
  cases h with
  | broken hp ha => trivial
  | bare hp ha => trivial
  | step hp ha random =>
    rw [hp] at hw
    exact within_resume hw _ _ _ _ _
  | thought hp =>
    rw [hp] at hw
    exact within_next _ hw.1 (.inr hw.2)

theorem sentBefore_trace (h : act.Within c.deadline s.now) :
    ∀ e ∈ (act.trace c i s w job).events, e.SentBefore c.deadline := by
  cases act with
  | send request purpose => simpa [Act.trace, Event.SentBefore] using h.1
  | think ms x p => simp [Act.trace]
  | stop message => simp [Act.trace]
  | complete jar work =>
    rw [Act.trace]
    dsimp only
    split <;> simp [Event.SentBefore]

theorem within_trace (h : act.Within c.deadline s.now) :
    (act.trace c i s w job).worker.phase.Within c.deadline := by
  cases act with
  | send request purpose => exact h.2
  | think ms x p => exact h
  | stop message => trivial
  | complete jar work =>
    rw [Act.trace]
    dsimp only
    split <;> trivial

theorem isFinished_trace : (act.trace c i s w job).worker.isFinished = false := by
  cases act with
  | send request purpose => rfl
  | think ms x p => rfl
  | stop message => rfl
  | complete jar work =>
    rw [Act.trace]
    dsimp only
    split <;> rfl

end

variable [Scalar α]

theorem within_of_opens {c : Course α} {now : Int} {jar : CookieJar} {e : Edition α} {act : Act}
    (h : Opens c now jar e act) (hd : now < c.deadline) : act.Within c.deadline now := by
  cases h with
  | scenario h random row hx =>
    subst hx
    exact within_next _ rfl (.inl hd)
  | bare h ht => exact ⟨hd, trivial⟩
  | nothing h ht => trivial

/-- What one worker does stays within the time of the run. -/
structure InTime (c : Course α) (now : Int) (w : Worker α) (past : List (Event α)) : Prop where
  sent : ∀ e ∈ past, e.SentBefore c.deadline
  phase : w.phase.Within c.deadline
  finished : w.isFinished = true → c.deadline ≤ now

section

variable {c : Course α} {channel : Channel (Plan α) Unit} {r : Metrics.Recorder} {s : State α}

omit [Scalar α] in
theorem inTime_trace {i : Nat} {w : Worker α} {job : Job α} {act : Act} {past : List (Event α)}
    (h : act.Within c.deadline s.now) (hp : ∀ e ∈ past, e.SentBefore c.deadline) :
    InTime c s.now (act.trace c i s w job).worker ((act.trace c i s w job).events ++ past) where
  sent e he := by
    rcases List.mem_append.mp he with he | he
    · exact sentBefore_trace h e he
    · exact hp e he
  phase := within_trace h
  finished hf := by
    rw [isFinished_trace] at hf
    cases hf

theorem inTime_of_moves {i : Nat} {w : Worker α} {t : Trace α} {past : List (Event α)}
    (hw : w.phase.Within c.deadline) (hp : ∀ e ∈ past, e.SentBefore c.deadline)
    (h : Moves c i s w t) : InTime c s.now t.worker (t.events ++ past) := by
  cases h with
  | begins h hf => exact ⟨by simpa [Event.SentBefore] using hp, trivial, by simp [Worker.isFinished]⟩
  | leaves h hd => exact ⟨by simpa using hp, trivial, fun _ => hd⟩
  | parks h hd he hpace =>
    exact ⟨by simpa [Event.SentBefore] using hp, trivial, by simp [Worker.isFinished]⟩
  | @starts w' h hd e he delayMs hpace act ha =>
    rw [Trace.after, List.append_assoc]
    exact inTime_trace (within_of_opens ha hd) (by simpa [Event.SentBefore] using hp)
  | goesOn h => exact inTime_trace (within_of_goesOn h hw) hp

variable (c channel r) in
theorem local_inTime : Local c (Reachable c channel r) fun _ now w _ past => InTime c now w past where
  fresh _ := ⟨by simp, trivial, by simp [Worker.fresh, Worker.isFinished]⟩
  wake _ h := h
  later _ hn _ h := ⟨h.sent, h.phase, fun hf => Int.le_trans (h.finished hf) hn⟩
  move _ _ _ _ h hm := inTime_of_moves h.phase h.sent hm

theorem time_lt_deadline (hs : Reachable c channel r s) {time : Int} {request : Request}
    (h : (time, request) ∈ s.requests) : time < c.deadline := by
  have hh := (local_inTime c channel r).holds hs
  simp only [requests, List.mem_filterMap, List.mem_reverse] at h
  obtain ⟨e, he, hreq⟩ := h
  cases e with
  | sent i t edition q =>
    obtain ⟨rfl, rfl⟩ : t = time ∧ q = request := by simpa using hreq
    obtain ⟨w, wait, hst, hmem⟩ := hh.exists_stands he rfl
    exact hst.holds.sent _ hmem
  | begun _ _ _ => cases hreq
  | paced _ _ _ _ => cases hreq
  | ended _ _ _ _ => cases hreq
  | published _ _ _ => cases hreq

theorem deadline_le_now (hs : Reachable c channel r s) (hover : s.isOver = true) {w : Worker α}
    (hw : w ∈ s.workers) (hstop : w.isStopped = false) : c.deadline ≤ s.now := by
  obtain ⟨i, hi⟩ := List.getElem?_of_mem hw
  obtain ⟨hend, hin⟩ := ((local_inTime c channel r).holds hs).isOver hover hi
  refine hin.finished ?_
  rw [Worker.isOver_eq, hstop, Bool.or_false] at hend
  exact hend

end

/-- A run keeps to its time: it sends nothing when its duration has passed since it began, and it is
not over before that unless all workers have broken down. -/
theorem run_keeps_time (setting : Setting α) (channel : Channel (Plan α) Unit)
    (r : Metrics.Recorder) (now : Int) {s : State α}
    (hs : Reachable (Course.ofPlan setting channel.current now) channel r s) :
    (∀ time request, (time, request) ∈ s.requests →
      time < now + Duration.toNanos channel.current.duration) ∧
    (s.isOver = true → s.workers.any (!·.isStopped) = true →
      now + Duration.toNanos channel.current.duration ≤ s.now) := by
  refine ⟨fun time request h => time_lt_deadline hs h, fun hover hany => ?_⟩
  obtain ⟨w, hw, hstop⟩ := List.any_eq_true.mp hany
  exact deadline_le_now hs hover hw (by simpa using hstop)

theorem run_keeps_time_steady : ∃ s : State Rat,
    (s.isOver = true ∧ s.requests.length = 10) ∧
      (∀ time request, (time, request) ∈ s.requests → time < 0 + Duration.toNanos (1 : Rat)) ∧
      0 + Duration.toNanos (1 : Rat) ≤ s.now := by
  have hs := reachable_stateAt (.ofClient (steady 200000000))
    (.ofPlan (planOf 2 (1 : Rat) (.constant 20))) (.create 1 false 0) 0 100
  obtain ⟨hsent, hend⟩ := run_keeps_time _ _ _ _ hs
  refine ⟨_, ?_, hsent, hend ?_ ?_⟩
  · decide +kernel
  · decide +kernel
  · decide +kernel

/-- A client that answers nothing breaks the only worker down at once. -/
theorem exists_over_early : ∃ (setting : Setting Rat) (channel : Channel (Plan Rat) Unit)
    (r : Metrics.Recorder) (s : State Rat),
    Reachable (Course.ofPlan setting channel.current 0) channel r s ∧ s.isOver = true ∧
      s.now < 0 + Duration.toNanos channel.current.duration := by
  refine ⟨.ofClient fun _ _ => ⟨0, .error []⟩, .ofPlan (planOf 1 1 .concurrent), .create 1 false 0,
    _, reachable_stateAt _ _ _ _ 6, ?_⟩
  decide +kernel

end LoadGenerator.Run
