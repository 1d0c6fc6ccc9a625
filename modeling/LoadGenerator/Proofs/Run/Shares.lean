import LoadGenerator.Proofs.Run.Steady

namespace LoadGenerator.Run

open Http Metrics State

variable {α : Type}

section

variable {sc : Scenario α} {t : Tracker} {label : Bytes}

theorem length_keys (sc : Scenario α) : (keys sc).length = sc.steps.length + 1 := by simp [keys]

theorem getElem_keys_step {p : Nat} (hp : p < sc.steps.length) :
    (keys sc)[p]? = some (.step, Work.stepLabel sc.name sc.steps[p].name) := by
  rw [keys, List.getElem?_append_left (by simpa using hp)]
  simp [hp]

theorem getElem_keys_scenario (sc : Scenario α) :
    (keys sc)[sc.steps.length]? = some (.scenario, sc.name) := by simp [keys]

theorem nodup_keys (h : (sc.steps.map (·.name)).Nodup) : (keys sc).Nodup := by
  have hinj : Function.Injective fun name => (Tracker.step, Work.stepLabel sc.name name) := by
    intro name name' heq
    exact List.append_cancel_left (congrArg Prod.snd heq)
  have hsteps := h.map hinj
  rw [List.map_map] at hsteps
  refine hsteps.append (List.nodup_singleton _) (List.disjoint_singleton.mpr fun hmem => ?_)
  obtain ⟨step, -, heq⟩ := List.mem_map.mp hmem
  cases congrArg Prod.fst heq

theorem length_filter_keys_le {cap : Nat} (h : t = .step → sc.steps.length ≤ max cap 1) :
    ((keys sc).filter (·.1 = t)).length ≤ max cap 1 := by
  cases t with
  | step => simpa [keys, List.filter_map, Function.comp_def] using h rfl
  | scenario => simp [keys, List.filter_map, Function.comp_def]
  | request => simp [keys, List.filter_map, Function.comp_def]

theorem keys_measuredAll {ws : List Work} (h : ∀ work ∈ ws, work.Repeats sc) :
    (measuredAll ws).map Measurement.key =
      (List.replicate ws.length (keys sc).reverse).flatten := by
  induction ws with
  | nil => rfl
  | cons work ws ih =>
    obtain ⟨hwork, hws⟩ := List.forall_mem_cons.mp h
    rw [measuredAll, List.flatMap_cons, List.map_append, List.map_reverse, hwork.keys,
      List.length_cons, List.replicate_succ, List.flatten_cons, ← ih hws, measuredAll]

end

/-- What is kept, out of `n` rounds of `a` measurements, of the one at place `p`. -/
structure Share (percent a p n kept : Nat) : Prop where
  exactly : kept = hits percent a p n
  own : |(kept : ℚ) - Nat.gcd 100 a * lucky percent (Nat.gcd 100 a) p * n / 100| ≤ 100
  even : Nat.gcd 100 a ∣ percent → |(kept : ℚ) - percent * n / 100| ≤ 100

theorem share_hits {percent : Nat} (h : percent ≤ 100) (a p n : Nat) :
    Share percent a p n (hits percent a p n) where
  exactly := rfl
  own := abs_hits_sub_le h a p n
  even hdvd := by
    have hown := abs_hits_sub_le h a p n
    have hall : (Nat.gcd 100 a : ℚ) * lucky percent (Nat.gcd 100 a) p = percent := by
      exact_mod_cast gcd_mul_lucky hdvd p
    rwa [hall] at hown

/-- What the trackers hold after `n` executions of `sc`. A step of a scenario that has more steps
than labels are held may have been given up. -/
structure Shared (sc : Scenario α) (percent cap n : Nat) (r : Recorder) : Prop where
  scenario : Share percent (sc.steps.length + 1) sc.steps.length n (r.scenarios.sampleCount sc.name)
  step : sc.steps.length ≤ max cap 1 → ∀ p (hp : p < sc.steps.length),
    Share percent (sc.steps.length + 1) p n
      (r.steps.sampleCount (Work.stepLabel sc.name sc.steps[p].name))
  step_le : ∀ p (hp : p < sc.steps.length),
    r.steps.sampleCount (Work.stepLabel sc.name sc.steps[p].name) ≤
      hits percent (sc.steps.length + 1) p n

section

variable {sc : Scenario α} {percent cap p : Nat} {ws : List Work} {r : Recorder} {t : Tracker}
  {label : Bytes}

theorem Rounds.sampleCount_le (h : Rounds sc percent cap ws r)
    (hnames : (sc.steps.map (·.name)).Nodup) (hp : (keys sc)[p]? = some (t, label)) :
    (r.tracker t).sampleCount label ≤ hits percent (sc.steps.length + 1) p ws.length := by
  have hle := h.sampled.sampleCount_le t label
  rwa [keys_measuredAll h.repeats, count_drawn_rounds (nodup_keys hnames) hp, length_keys] at hle

theorem Rounds.sampleCount_eq (h : Rounds sc percent cap ws r)
    (hnames : (sc.steps.map (·.name)).Nodup) (hp : (keys sc)[p]? = some (t, label))
    (hroom : t = .step → sc.steps.length ≤ max cap 1) :
    (r.tracker t).sampleCount label = hits percent (sc.steps.length + 1) p ws.length := by
  have hkeys : ∀ m ∈ measuredAll ws, m.key ∈ keys sc := by
    intro m hm
    obtain ⟨work, hwork, hm⟩ := List.mem_flatMap.mp hm
    rw [← (h.repeats work hwork).keys]
    exact List.mem_map_of_mem (List.mem_reverse.mp hm)
  have heq := h.sampled.sampleCount_eq hkeys (length_filter_keys_le hroom) label
  rwa [keys_measuredAll h.repeats, count_drawn_rounds (nodup_keys hnames) hp, length_keys] at heq

theorem Rounds.shared (h : Rounds sc percent cap ws r) (hpercent : percent ≤ 100)
    (hnames : (sc.steps.map (·.name)).Nodup) : Shared sc percent cap ws.length r where
  scenario := by
    have heq := h.sampleCount_eq hnames (getElem_keys_scenario sc) (by simp)
    exact heq ▸ share_hits hpercent _ _ _
  step hroom p hp := by
    have heq := h.sampleCount_eq hnames (getElem_keys_step hp) fun _ => hroom
    exact heq ▸ share_hits hpercent _ _ _
  step_le p hp := h.sampleCount_le hnames (getElem_keys_step hp)

end

theorem length_units (s : State α) : s.units.length = (works s.deeds).length := by
  rw [units, List.length_reverse, works_deeds]

/-- As long as nothing goes wrong, each step and the execution itself have the share of their place:
which slots of a hundred fall to it depends on the number of steps. -/
theorem keeps_shares [Scalar α] [Scalar.Ordered α] {setting : Setting α}
    {channel : Channel (Plan α) Unit} {now begun : Int} {cap : Nat} {listening : Bool} {s : State α}
    {sc : Scenario α} (hnews : setting.news = []) (hone : channel.current.scenarios = [sc])
    (hnames : (sc.steps.map (·.name)).Nodup) (hpercent : channel.current.sampling < 100)
    (hguard : channel.current.guard.warning ≤ channel.current.guard.critical)
    (hs : Reachable (.ofPlan setting channel.current now) channel (.create cap listening begun) s)
    (hsmooth : s.Smooth) : Shared sc channel.current.sampling cap s.units.length s.recorder := by
  have hrounds := rounds hguard hnews hone hpercent hs hsmooth
  rw [length_units]
  exact hrounds.shared hpercent.le hnames

def strides (steps : Nat) : List Step :=
  (List.range steps).map fun n => ⟨[n.toUInt8], ⟨[], [], none, []⟩, [], [], none, none⟩

def striding (steps : List Step) (percent : Nat) : Plan Rat :=
  { planOf 1 60 .concurrent with
    percentiles := true
    sampling := percent
    selector := some ⟨[⟨[], 1, steps, none⟩], [1], 1, by simp⟩ }

def strode (steps : List Step) (percent turns : Nat) : State Rat :=
  stateAt (Setting.ofClient (steady 1000000)) (.ofPlan (striding steps percent))
    (.create Labelled.usualCap false 0) 0 turns

theorem nodup_strides {steps : Nat} (h : steps ≤ 256) :
    ((strides steps).map (·.name)).Nodup := by
  rw [strides, List.map_map]
  refine List.nodup_range.map_on fun m hm n hn heq => ?_
  have hbyte : m.toUInt8.toNat = n.toUInt8.toNat := congrArg UInt8.toNat (List.cons.inj heq).1
  have hm' := List.mem_range.mp hm
  have hn' := List.mem_range.mp hn
  simpa [Nat.mod_eq_of_lt (show m < 256 by omega), Nat.mod_eq_of_lt (show n < 256 by omega)]
    using hbyte

theorem keeps_shares_three : (strode (strides 3) 1 12).units.length = 2 ∧
    Shared (⟨[], 1, strides 3, none⟩ : Scenario Rat) 1 100 2
      (strode (strides 3) 1 12).recorder := by
  have hs := reachable_stateAt (Setting.ofClient (steady 1000000))
    (.ofPlan (striding (strides 3) 1)) (.create Labelled.usualCap false 0) 0 12
  have hsmooth : (strode (strides 3) 1 12).Smooth :=
    ⟨by decide +kernel, by decide +kernel, by decide +kernel⟩
  have hunits : (strode (strides 3) 1 12).units.length = 2 := by decide +kernel
  have hshared := keeps_shares rfl rfl (nodup_strides (by decide)) (by decide) (by decide +kernel)
    hs hsmooth
  rw [← strode, hunits] at hshared
  exact ⟨hunits, hshared⟩

theorem Rounds.sampleCount_eq_zero {sc : Scenario α} {percent cap n : Nat} {ws : List Work}
    {r : Recorder} {t : Tracker} {label : Bytes} (h : Rounds sc percent cap ws r)
    (hnames : (sc.steps.map (·.name)).Nodup) (hn : ws.length = n + 1)
    (hround : n * (sc.steps.length + 1) % 100 = 0)
    (hmany : max cap 1 ≤ ((drawn percent t (keys sc).reverse).takeWhile (· ≠ label)).length) :
    (r.tracker t).sampleCount label = 0 := by
  refine h.sampled.sampleCount_eq_zero fun hheld => Nat.not_lt.mpr hmany (lt_of_le_of_lt ?_ hheld.2)
  have hnodup : (drawn percent t (keys sc).reverse).Nodup :=
    nodup_drawn (List.nodup_reverse.mpr (nodup_keys hnames))
  rw [← List.toFinset_card_of_nodup (hnodup.sublist (List.takeWhile_sublist _))]
  have hbefore : (List.replicate n (keys sc).reverse).flatten.length % 100 = 0 := by
    simpa [length_keys] using hround
  rw [Labelled.recordedAfter, recorded_kept, keys_measuredAll h.repeats, hn, List.replicate_succ,
    List.flatten_cons, drawn_append hbefore]
  refine Finset.card_le_card fun a ha => ?_
  rw [List.mem_toFinset] at ha ⊢
  rw [List.takeWhile_append]
  split
  · exact List.mem_append_left _ ((List.takeWhile_sublist _).subset ha)
  · exact ha

section

variable {steps : List Step} {percent : Nat}

theorem steadily_striding (h : ∀ step ∈ steps, IsPlain step) :
    Steadily (.ofPlan (Setting.ofClient (steady 1000000)) (striding steps percent) 0)
      (striding steps percent) steps 1000000 where
  workers := rfl
  memory := rfl
  client := rfl
  news := rfl
  load := rfl
  selector := ⟨_, rfl, by simp⟩
  plain := h

theorem exists_striding (hsteps : steps ≠ []) (h : ∀ step ∈ steps, IsPlain step)
    (hpercent : percent < 100) {n : Nat} (hn : (n + 1) * (steps.length * 1000000) < 60000000000) :
    ∃ s : State Rat,
      Reachable (.ofPlan (Setting.ofClient (steady 1000000)) (striding steps percent) 0)
        (.ofPlan (striding steps percent)) (.create Labelled.usualCap false 0) s ∧
      s.Smooth ∧ s.units.length = n + 1 ∧
      Rounds (⟨[], 1, steps, none⟩ : Scenario Rat) percent Labelled.usualCap (works s.deeds)
        s.recorder := by
  have hminute : (Course.ofPlan (Setting.ofClient (steady 1000000)) (striding steps percent)
      0).deadline = 60000000000 := by
    change (0 : Int) + Duration.toNanos (60 : Rat) = _
    decide +kernel
  have hguard : (striding steps percent).guard.warning ≤
      (striding steps percent).guard.critical := by
    change (Plan.usual : Plan Rat).guard.warning ≤ (Plan.usual : Plan Rat).guard.critical
    decide +kernel
  let channel : Channel (Plan Rat) Unit := .ofPlan (striding steps percent)
  have hc : Steadily _ channel.current steps 1000000 := steadily_striding h
  obtain ⟨s, hs, hpoised⟩ := exists_poised hc hsteps hpercent rfl Labelled.usualCap false 0 n (by
    rw [hminute]
    change (0 : Int) + _ < _
    omega)
  exact ⟨s, hs, hpoised.smooth, hpoised.fares.units,
    rounds hguard rfl rfl hpercent hs hpoised.smooth⟩

end

theorem isPlain_of_mem_strides {steps : Nat} {step : Step} (h : step ∈ strides steps) :
    IsPlain step := by
  obtain ⟨n, -, rfl⟩ := List.mem_map.mp h
  exact ⟨rfl, rfl⟩

/-- With one step, the slots of the step are the even ones, so slot zero is always its own. With
more steps than labels are held, the first step is given up in every execution. -/
theorem exists_unfair :
    (∃ s : State Rat,
      Reachable (.ofPlan (Setting.ofClient (steady 1000000)) (striding (strides 1) 1) 0)
        (.ofPlan (striding (strides 1) 1)) (.create Labelled.usualCap false 0) s ∧
      s.Smooth ∧ s.units.length = 9951 ∧
      100 < |(s.recorder.steps.sampleCount (Work.stepLabel [] [0]) : ℚ) - 1 * 9951 / 100|) ∧
    ∃ s : State Rat,
      Reachable (.ofPlan (Setting.ofClient (steady 1000000)) (striding (strides 199) 99) 0)
        (.ofPlan (striding (strides 199) 99)) (.create Labelled.usualCap false 0) s ∧
      s.Smooth ∧ s.units.length = 102 ∧
      100 < |(s.recorder.steps.sampleCount (Work.stepLabel [] [0]) : ℚ) - 99 * 102 / 100| := by
  constructor
  · obtain ⟨s, hs, hsmooth, hunits, hrounds⟩ := exists_striding
      (show strides 1 ≠ [] by decide) (fun step h => isPlain_of_mem_strides h)
      (show 1 < 100 by decide)
      (show (9950 + 1) * ((strides 1).length * 1000000) < 60000000000 by decide)
    refine ⟨s, hs, hsmooth, hunits, ?_⟩
    rw [length_units] at hunits
    have hcount : s.recorder.steps.sampleCount (Work.stepLabel [] [0]) =
        hits 1 2 0 (works s.deeds).length :=
      hrounds.sampleCount_eq (t := .step) (nodup_strides (by decide)) rfl fun _ => by decide
    -- the slots come again after fifty executions
    have htwice : hits 1 2 0 9951 = 200 :=
      (hits_mul_period_add (by decide) 2 0 199 1).trans (by decide)
    rw [hcount, hunits, htwice]
    norm_num
  · obtain ⟨s, hs, hsmooth, hunits, hrounds⟩ := exists_striding
      (show strides 199 ≠ [] by decide +kernel) (fun step h => isPlain_of_mem_strides h)
      (show 99 < 100 by decide)
      (show (101 + 1) * ((strides 199).length * 1000000) < 60000000000 by decide +kernel)
    refine ⟨s, hs, hsmooth, hunits, ?_⟩
    rw [length_units] at hunits
    have hzero : s.recorder.steps.sampleCount (Work.stepLabel [] [0]) = 0 :=
      hrounds.sampleCount_eq_zero (t := .step) (nodup_strides (by decide)) hunits
        (by decide +kernel) (by decide +kernel)
    rw [hzero]
    norm_num [abs_of_neg]

end LoadGenerator.Run
