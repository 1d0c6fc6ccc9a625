import LoadGenerator.Plan.Loader

namespace LoadGenerator

variable {ε β γ : Type}

namespace PlanReader

/-- Whatever is accepted satisfies `P`. -/
def Ensures (x : Except ε β) (P : β → Prop) : Prop := ∀ b, x = .ok b → P b

variable {x : Except ε β} {f : β → Except ε γ} {P Q : β → Prop} {R : γ → Prop}

theorem ensures_ok {b : β} (h : P b) : Ensures (.ok b : Except ε β) P :=
  fun _ hb => Except.ok.inj hb ▸ h

theorem ensures_error (e : ε) : Ensures (.error e) P := nofun

theorem ensures_fail (field : Bytes) (message : String) : Ensures (fail field message) P :=
  ensures_error _

theorem ensures_eq (x : Except ε β) : Ensures x fun b => x = .ok b := fun _ hb => hb

theorem Ensures.mono (h : Ensures x Q) (hQ : ∀ b, Q b → P b) : Ensures x P :=
  fun b hb => hQ b (h b hb)

theorem Ensures.bind (h : Ensures x Q) (hf : ∀ b, Q b → Ensures (f b) R) :
    Ensures (x >>= f) R := by
  cases x with
  | error e => exact ensures_error e
  | ok b => exact hf b (h b rfl)

theorem ensures_true (x : Except ε β) : Ensures x fun _ => True := fun _ _ => trivial

theorem ensures_bind (hf : ∀ b, Ensures (f b) R) : Ensures (x >>= f) R :=
  (ensures_eq x).bind fun b _ => hf b

theorem Ensures.map {g : β → γ} (h : Ensures x fun b => R (g b)) : Ensures (x.map g) R := by
  cases x with
  | error e => exact ensures_error e
  | ok b => exact ensures_ok (h b rfl)

theorem Ensures.mapError {φ : Type} (h : Ensures x P) (g : ε → φ) : Ensures (x.mapError g) P := by
  cases x with
  | error e => exact ensures_error _
  | ok b => exact ensures_ok (h b rfl)

theorem ensures_map {g : β → γ} (h : ∀ b, R (g b)) : Ensures (x.map g) R :=
  ((ensures_eq x).mono fun b _ => h b).map

theorem ensures_mapM {δ : Type} {read : δ → Read β} (ds : List δ)
    (h : ∀ d ∈ ds, Ensures (read d) P) :
    Ensures (ds.mapM read) fun bs => bs.length = ds.length ∧ ∀ b ∈ bs, P b := by
  induction ds with
  | nil => exact ensures_ok ⟨rfl, nofun⟩
  | cons d ds ih =>
    obtain ⟨hd, hds⟩ := List.forall_mem_cons.mp h
    rw [List.mapM_cons]
    refine hd.bind fun b hb => (ih hds).bind fun bs hbs => ensures_ok ⟨?_, ?_⟩
    · rw [List.length_cons, List.length_cons, hbs.1]
    · exact List.forall_mem_cons.mpr ⟨hb, hbs.2⟩

theorem ensures_each {read : Bytes → Json → Read β} (field : Bytes) (items : List Json)
    (h : ∀ field, ∀ v ∈ items, Ensures (read field v) P) :
    Ensures (each read field items) fun bs => bs.length = items.length ∧ ∀ b ∈ bs, P b := by
  have hall := ensures_mapM items.zipIdx fun (p : Json × Nat) hp =>
    h (itemPath field p.2) p.1 (List.fst_mem_of_mem_zipIdx hp)
  rw [List.length_zipIdx] at hall
  exact hall

end PlanReader

namespace PlanLoader

open PlanReader (Read)

def Ensures (x : Load β) (P : β → Prop) : Prop :=
  ∀ b before after, StateT.run x before = (.ok b, after) → P b

variable {x : Load β} {f : β → Load γ} {P Q : β → Prop} {R : γ → Prop}

theorem ensures_pure {b : β} (h : P b) : Ensures (pure b) P := by
  rintro b' before after hb
  obtain ⟨⟨⟩, -⟩ := Prod.mk.inj hb
  exact h

theorem ensures_throw (e : ConfigError) : Ensures (throw e) P := by
  rintro b before after hb
  obtain ⟨⟨⟩, -⟩ := Prod.mk.inj hb

theorem ensures_ofRead {r : Read β} (h : PlanReader.Ensures r P) : Ensures (ofRead r) P := by
  rintro b before after hb
  obtain ⟨rfl, -⟩ := Prod.mk.inj hb
  exact h b rfl

theorem run_bind (x : Load β) (f : β → Load γ) (before : List Notice) :
    StateT.run (x >>= f : Load γ) before =
      match StateT.run x before with
      | (.ok b, between) => StateT.run (f b) between
      | (.error e, between) => (.error e, between) := by
  change ExceptT.bindCont f (StateT.run x before).1 (StateT.run x before).2 = _
  rcases StateT.run x before with ⟨_ | _, _⟩ <;> rfl

theorem Ensures.bind (h : Ensures x Q) (hf : ∀ b, Q b → Ensures (f b) R) :
    Ensures (x >>= f) R := by
  intro c before after hc
  rw [run_bind] at hc
  split at hc
  · next b between hx => exact hf b (h b before between hx) c between after hc
  · cases hc

theorem Ensures.mono (h : Ensures x Q) (hQ : ∀ b, Q b → P b) : Ensures x P :=
  fun b before after hb => hQ b (h b before after hb)

theorem ensures_true (x : Load β) : Ensures x fun _ => True := fun _ _ _ _ => trivial

theorem ensures_bind (hf : ∀ b, Ensures (f b) R) : Ensures (x >>= f) R :=
  (ensures_true x).bind fun b _ => hf b

theorem exists_of_run {x : Load β} (h : ∃ b ∈ (run x).1.toOption, P b) :
    ∃ b notices, run x = (.ok b, notices) ∧ P b := by
  obtain ⟨b, hb, hP⟩ := h
  rcases hr : run x with ⟨_ | b', notices⟩
  · rw [hr] at hb
    cases hb
  · rw [hr] at hb
    obtain rfl : b' = b := Option.some.inj hb
    exact ⟨b', notices, rfl, hP⟩

theorem ensures_throw_bind (e : ConfigError) (f : β → Load γ) :
    Ensures (throw e >>= f : Load γ) R :=
  Ensures.bind (Q := fun _ => False) (ensures_throw e) nofun

theorem ensures_section {v : Json} {key : String} {usual : β} {read : Json → Read β} (h : P usual)
    (hr : ∀ s, v.member? (utf8 key) = some s → PlanReader.Ensures (read s) P) :
    Ensures (section? v key usual read) P := by
  unfold section?
  split
  · exact ensures_pure h
  · next s hs => exact ensures_ofRead (hr s hs)

theorem ensures_mapM {δ : Type} {load : δ → Load β} (ds : List δ)
    (h : ∀ d ∈ ds, Ensures (load d) P) : Ensures (ds.mapM load) fun bs => ∀ b ∈ bs, P b := by
  induction ds with
  | nil => exact ensures_pure nofun
  | cons d ds ih =>
    obtain ⟨hd, hds⟩ := List.forall_mem_cons.mp h
    rw [List.mapM_cons]
    exact hd.bind fun b hb => (ih hds).bind fun bs hbs =>
      ensures_pure (List.forall_mem_cons.mpr ⟨hb, hbs⟩)

end PlanLoader

end LoadGenerator
