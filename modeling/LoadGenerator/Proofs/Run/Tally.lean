import LoadGenerator.Proofs.Run.Parking
import LoadGenerator.Proofs.Run.Works

namespace LoadGenerator.Run

open Http Metrics State

/-- A client that answers everything, with a response or an error of one of the six kinds. -/
def Faithful (client : Client) : Prop :=
  ∀ n request, ∃ reply, (client n request).reply = .ok reply ∧
    ∀ e, reply = .error e → e.kind.isNamed = true

theorem Faithful.known {client : Client} (h : Faithful client) (n : Nat) (request : Request) :
    ∃ reply, (client n request).reply = .ok reply ∧ KnownReply reply := by
  obtain ⟨reply, hreply, hnamed⟩ := h n request
  exact ⟨reply, hreply, fun e he => known_of_isNamed (hnamed e he)⟩

variable {α : Type}

def HasWork (plan : Plan α) : Prop := plan.selector ≠ none ∨ plan.request ≠ none

def Event.work? : Event α → Option Work
  | .ended _ _ _ work => some work
  | _ => none

def Event.begins : Event α → Bool
  | .paced _ _ _ (some _) => true
  | _ => false

def works (es : List (Event α)) : List Work := es.filterMap Event.work?

namespace Purpose

def Sound : Purpose → Prop
  | .bare _ => True
  | .step _ p _ => ∀ r ∈ p.done, KnownStep r

def made : Purpose → Nat
  | .bare _ => 0
  | .step _ p _ => p.done.length

end Purpose

namespace Act

def Sound : Act → Prop
  | .send _ purpose => purpose.Sound
  | .think _ _ p => ∀ r ∈ p.done, KnownStep r
  | .complete _ work => work.Sound
  | .stop _ => False

def made : Act → Nat
  | .send _ purpose => purpose.made
  | .think _ _ p => p.done.length
  | .complete _ work => work.outcomes.length
  | .stop _ => 0

end Act

namespace Phase

def Sound : Phase α → Prop
  | .sending _ purpose _ answer =>
    purpose.Sound ∧ ∃ reply, answer.reply = .ok reply ∧ KnownReply reply
  | .thinking _ _ p => ∀ r ∈ p.done, KnownStep r
  | .stopped => False
  | _ => True

def made : Phase α → Nat
  | .sending _ purpose _ _ => purpose.made + 1
  | .thinking _ _ p => p.done.length
  | _ => 0

def underWay : Phase α → Nat
  | .sending _ _ _ _ => 1
  | .thinking _ _ _ => 1
  | _ => 0

end Phase

section

variable {x : Execution} {p : Execution.Progress}

theorem sound_next (hp : ∀ r ∈ p.done, KnownStep r) (now : Int) :
    (Act.ofDemand x now (x.next p now)).Sound ∧
      (Act.ofDemand x now (x.next p now)).made = p.done.length := by
  have hfinish (verdict : Verdict) :
      (Act.ofDemand x now (.finished verdict p)).Sound ∧
        (Act.ofDemand x now (.finished verdict p)).made = p.done.length := by
    constructor
    · intro r hr
      exact hp r (List.mem_reverse.mp hr)
    · simp [Act.ofDemand, Act.made, Work.outcomes, Execution.result]
  rw [Execution.next]
  cases p.left with
  | nil => exact hfinish _
  | cons step left =>
    by_cases hover : x.isOver p now = true
    · simp only [hover, if_true]
      exact hfinish _
    · simp only [hover, Bool.false_eq_true, if_false]
      exact ⟨hp, rfl⟩

theorem sound_receive (hp : ∀ r ∈ p.done, KnownStep r) (step : Step) {reply : Reply}
    (hr : KnownReply reply) (ms : Float) :
    (∀ r ∈ (Execution.receive p step reply ms).1.done, KnownStep r) ∧
      (Execution.receive p step reply ms).1.done.length = p.done.length + 1 := by
  unfold Execution.receive
  cases reply with
  | error e =>
    refine ⟨fun r h => ?_, rfl⟩
    rcases List.mem_cons.mp h with rfl | h
    · intro e' he'
      obtain rfl : e = e' := by simpa [Execution.failed] using he'
      exact hr e rfl
    · exact hp r h
  | ok response =>
    have hchecked : KnownStep (Execution.checked step response ms) := by
      intro e he
      simp [Execution.checked] at he
    have hdone : ∀ r ∈ Execution.checked step response ms :: p.done, KnownStep r := by
      intro r h
      rcases List.mem_cons.mp h with rfl | h
      · exact hchecked
      · exact hp r h
    dsimp only
    split
    · exact ⟨hdone, rfl⟩
    · exact ⟨hdone, rfl⟩

theorem sound_resume (hp : ∀ r ∈ p.done, KnownStep r) (step : Step) {reply : Reply}
    (hr : KnownReply reply) (sentAt now : Int) (random : Nat) :
    (Act.ofDemand x now (x.resume p step reply sentAt now random).1).Sound ∧
      (Act.ofDemand x now (x.resume p step reply sentAt now random).1).made = p.done.length + 1 := by
  obtain ⟨hdone, hlen⟩ := sound_receive hp step hr (millisBetween sentAt now)
  have hnext := sound_next (x := x) hdone now
  rw [hlen] at hnext
  rw [Execution.resume]
  dsimp only
  split
  · constructor
    · intro r h
      exact hdone r (List.mem_reverse.mp h)
    · simpa [Act.ofDemand, Act.made, Work.outcomes, Execution.result] using hlen
  · split
    · split
      · exact ⟨hdone, hlen⟩
      · exact hnext
    · exact hnext

theorem sound_of_goesOn {now : Int} {w : Worker α} {job : Job α} {act : Act}
    (h : GoesOn now w job act) (hw : w.phase.Sound) : act.Sound ∧ act.made = w.phase.made := by
  cases h with
  | broken hp ha =>
    rw [hp] at hw
    obtain ⟨-, reply, hreply, -⟩ := hw
    cases ha.symm.trans hreply
  | bare hp ha =>
    rw [hp] at hw ⊢
    obtain ⟨-, reply, hreply, hknown⟩ := hw
    cases ha.symm.trans hreply
    exact ⟨hknown, rfl⟩
  | step hp ha random =>
    rw [hp] at hw ⊢
    obtain ⟨hdone, reply, hreply, hknown⟩ := hw
    cases ha.symm.trans hreply
    exact sound_resume hdone _ hknown _ _ _
  | thought hp =>
    rw [hp] at hw ⊢
    exact sound_next hw _

end

/-- Counts of what has been done, where so many requests of the unit under way have been sent, if
there is one. -/
structure Tallied (iterations failures : Nat) (past : List (Event α)) (made underWay : Nat) :
    Prop where
  sound : ∀ work ∈ works past, work.Sound
  iterations : iterations = (works past).length
  failures : failures = (works past).countP (!·.ok)
  sent : past.countP Event.isSent = ((works past).map (·.outcomes.length)).sum + made
  begun : past.countP Event.begins = (works past).length + underWay

/-- What a worker has counted agrees with what it has done. -/
structure Counted (w : Worker α) (past : List (Event α)) : Prop where
  phase : w.phase.Sound
  tallied : Tallied w.iterations w.failures past w.phase.made w.phase.underWay

section

variable {iterations failures made underWay : Nat} {past : List (Event α)}

theorem Tallied.cons (h : Tallied iterations failures past made underWay) {e : Event α}
    (he : e.work? = none) :
    Tallied iterations failures (e :: past) (made + e.isSent.toNat)
      (underWay + e.begins.toNat) := by
  have hw : works (e :: past) = works past := List.filterMap_cons_none he
  constructor
  · exact hw ▸ h.sound
  · exact hw ▸ h.iterations
  · exact hw ▸ h.failures
  · rw [hw, List.countP_cons, h.sent, Nat.add_assoc]
    cases e.isSent <;> rfl
  · rw [hw, List.countP_cons, h.begun, Nat.add_assoc]
    cases e.begins <;> rfl

theorem Tallied.ended {work : Work} (h : Tallied iterations failures past work.outcomes.length 1)
    (hw : work.Sound) (i : Nat) (now : Int) (job : Job α) :
    Tallied (iterations + 1) (failures + (!work.ok).toNat) (.ended i now job work :: past) 0 0 := by
  have hworks : works (.ended i now job work :: past) = work :: works past := rfl
  constructor
  · rw [hworks]
    exact List.forall_mem_cons.mpr ⟨hw, h.sound⟩
  · rw [hworks, List.length_cons, ← h.iterations]
  · rw [hworks, List.countP_cons, ← h.failures]
    cases work.ok <;> rfl
  · rw [hworks, List.countP_cons_of_neg (by simp [Event.isSent]), h.sent, List.map_cons,
      List.sum_cons]
    omega
  · rw [hworks, List.countP_cons_of_neg (by simp [Event.begins]), h.begun]
    rfl

end

theorem counted_trace {c : Course α} (hc : Faithful c.setting.client) {i : Nat} {s : State α}
    {w : Worker α} {job : Job α} {act : Act} {past : List (Event α)} (ha : act.Sound)
    (h : Tallied w.iterations w.failures past act.made 1) :
    Counted (act.trace c i s w job).worker ((act.trace c i s w job).events ++ past) := by
  cases act with
  | send request purpose => exact ⟨⟨ha, hc.known _ _⟩, h.cons (e := .sent i s.now job.edition request) rfl⟩
  | think ms x p => exact ⟨ha, h⟩
  | stop message => exact ha.elim
  | complete jar work =>
    have htrouble := trouble_ofWork (a := .ofRecorder s.recorder w.reported) rfl s.now
      job.edition.plan.sampling i ha
    -- without trouble the worker rests, and counts the unit
    rw [Act.trace]
    dsimp only
    rw [htrouble]
    exact ⟨trivial, h.ended ha i s.now job⟩

theorem Counted.finished {w : Worker α} {past : List (Event α)} (h : Counted w past)
    (hover : w.isOver = true) :
    w.isFinished = true ∧ w.phase.made = 0 ∧ w.phase.underWay = 0 := by
  have hphase := h.phase
  unfold Worker.isOver at hover
  cases hp : w.phase with
  | finished => exact ⟨by simp [Worker.isFinished, hp], rfl, rfl⟩
  | stopped =>
    rw [hp] at hphase
    exact hphase.elim
  | _ => simp [hp] at hover

theorem tallied_of_atHead {now : Int} {w w' : Worker α} {past : List (Event α)}
    (h : Counted w past) (hw : AtHead now w w') :
    Tallied w'.iterations w'.failures past 0 0 := by
  have ht := h.tallied
  cases hw with
  | pausing hp =>
    rw [hp] at ht
    exact ht
  | parked hp =>
    rw [hp] at ht
    exact ht

theorem underWay_of_goesOn {now : Int} {w : Worker α} {job : Job α} {act : Act}
    (h : GoesOn now w job act) : w.phase.underWay = 1 := by
  cases h with
  | broken hp ha => rw [hp]; rfl
  | bare hp ha => rw [hp]; rfl
  | step hp ha random => rw [hp]; rfl
  | thought hp => rw [hp]; rfl

variable [Scalar α]

theorem sound_of_opens {c : Course α} {now : Int} {jar : CookieJar} {e : Edition α} {act : Act}
    (h : Opens c now jar e act) (he : HasWork e.plan) : act.Sound ∧ act.made = 0 := by
  cases h with
  | scenario h random row hx => exact sound_next (by simp) _
  | bare h ht => exact ⟨trivial, rfl⟩
  | nothing h ht => simp [HasWork, h, ht] at he

theorem counted_of_moves {c : Course α} (hc : Faithful c.setting.client) {i : Nat} {s : State α}
    {w : Worker α} {t : Trace α} {past : List (Event α)} (h : Counted w past) (hm : Moves c i s w t)
    (he : ∀ w', AtHead s.now w w' → HasWork (taken s i w').plan) :
    Counted t.worker (t.events ++ past) := by
  cases hm with
  | begins hp hf =>
    have ht := h.tallied
    rw [hp] at ht
    exact ⟨trivial, ht.cons (e := .begun i s.now s.edition) rfl⟩
  | leaves hw hd =>
    have ht := tallied_of_atHead h hw
    exact ⟨trivial, ht⟩
  | @parks w' hw hd e he' hp =>
    have ht := (tallied_of_atHead h hw).cons (e := .paced i s.now e none) rfl
    exact ⟨trivial, ht⟩
  | @starts w' hw hd e he' delayMs hp act ha =>
    obtain ⟨hsound, hact⟩ := sound_of_opens ha (he' ▸ he w' hw)
    have ht := (tallied_of_atHead h hw).cons (e := .paced i s.now e (some delayMs)) rfl
    rw [Trace.after, List.append_assoc, List.singleton_append]
    refine counted_trace hc hsound ?_
    rw [hact]
    exact ht
  | goesOn hg =>
    obtain ⟨ha, hmade⟩ := sound_of_goesOn hg h.phase
    have ht := h.tallied
    rw [underWay_of_goesOn hg, ← hmade] at ht
    exact counted_trace hc ha ht

section

variable {c : Course α} {channel : Channel (Plan α) Unit} {r : Recorder} {s : State α}

theorem taken_mem {s₁ : State α} (hs : Reachable c channel r s) (hc : s₁.channel = s.channel)
    {i : Nat} {w w' : Worker α} (hw : s.workers[i]? = some w) (h : AtHead s₁.now w w') :
    (taken s₁ i w').plan ∈ c.plans channel.current := by
  have hn := news hs
  have hd := (hn.informed i w hw).dated
  have hed : s₁.edition = s.edition := by rw [edition, hc, edition]
  have ht : taken s₁ i w' = s₁.edition := by
    refine taken_eq ?_
    rw [edition_of_atHead h, hed, hc]
    exact hd
  rw [ht, hed]
  exact hn.source

theorem local_counted (hc : Faithful c.setting.client)
    (hp : ∀ plan ∈ c.plans channel.current, HasWork plan) :
    Local c (Reachable c channel r) fun _ _ w _ past => Counted w past where
  fresh _ := ⟨trivial, by simp [works], rfl, rfl, rfl, rfl⟩
  wake _ h := h
  later _ _ _ h := h
  move hs hw ht _ h hm :=
    counted_of_moves hc h hm fun _ hw' => hp _ (taken_mem hs ht.channel hw hw')

end

end LoadGenerator.Run
