import LoadGenerator.Proofs.Text.Bytes
import LoadGenerator.Scenario.Variables

namespace LoadGenerator.Variables

/-- The text `${name}`. -/
def placeholder (name : Bytes) : Bytes := 36 :: 123 :: (name ++ [125])

/-- Some well-formed placeholder begins at the first byte. -/
def Opens (s : Bytes) : Prop := ∃ name rest, isName name ∧ s = placeholder name ++ rest

variable {value? : Bytes → Option Bytes} {b : UInt8} {s l r name : Bytes}

theorem not_mem_of_isName (h : isName name) (hb : Bytes.isWord b = false) : b ∉ name := by
  intro hmem
  have hall : ∀ c ∈ name, Bytes.isWord c = true :=
    List.all_eq_true.mp (Bool.and_eq_true_iff.mp h).2
  rw [hall b hmem] at hb
  cases hb

theorem fill_nil : fill value? [] = [] := by rw [fill]

theorem fill_placeholder_append (h : isName name) :
    fill value? (placeholder name ++ r) =
      (value? name).getD (placeholder name) ++ fill value? r := by
  have hcut : Bytes.cutByte? 125 (name ++ 125 :: r) = some (name, r) :=
    Bytes.cutByte?_append (not_mem_of_isName h (by decide))
  have htext : placeholder name ++ r = 36 :: 123 :: (name ++ 125 :: r) := by simp [placeholder]
  rw [htext, fill, if_pos ⟨rfl, rfl⟩]
  split
  · next hnone => rw [hcut] at hnone; cases hnone
  · next hsome =>
    rw [hcut] at hsome
    cases hsome
    rw [if_pos h]
    rfl

theorem fill_of_not_mem (h : 125 ∉ s) : fill value? s = s := by
  fun_induction fill value? s with
  | case1 => rfl
  | case2 => rfl
  | case3 => rfl
  | case4 b c s hopen name rest hcut hname ih =>
    obtain ⟨-, rfl⟩ := Bytes.cutByte?_eq_some.mp hcut
    simp at h
  | case5 b c s hopen name rest hcut hname ih =>
    obtain ⟨-, rfl⟩ := Bytes.cutByte?_eq_some.mp hcut
    simp at h
  | case6 b c s hopen ih =>
    rw [ih (List.not_mem_of_not_mem_cons h)]

theorem fill_cons_of_ne (h : b ≠ 36) : fill value? (b :: s) = b :: fill value? s := by
  cases s with
  | nil => rw [fill, fill]
  | cons c s => rw [fill, if_neg fun hopen => h hopen.1]

theorem fill_cons (h : ¬ Opens (b :: s)) : fill value? (b :: s) = b :: fill value? s := by
  cases s with
  | nil => rw [fill, fill]
  | cons c s =>
    rw [fill]
    split
    · next hopen =>
      obtain ⟨rfl, rfl⟩ := hopen
      have hbrace : fill value? (123 :: s) = 123 :: fill value? s := fill_cons_of_ne (by decide)
      split
      · next hnone => rw [hbrace, fill_of_not_mem (Bytes.cutByte?_eq_none.mp hnone)]
      · next name rest hsome =>
        obtain ⟨-, rfl⟩ := Bytes.cutByte?_eq_some.mp hsome
        have hname : ¬ isName name := fun hname => h ⟨name, rest, hname, by simp [placeholder]⟩
        rw [if_neg hname, hbrace]
    · rfl

theorem eq_append_of_append_eq {name' : Bytes} {m : Bytes} (hl : l ≠ []) (hname : isName name')
    (h : l ++ (placeholder name ++ r) = placeholder name' ++ m) :
    ∃ l', l = placeholder name' ++ l' ∧ m = l' ++ (placeholder name ++ r) := by
  rcases List.append_eq_append_iff.mp h with ⟨m', hm', hr⟩ | ⟨l', rfl, hm⟩
  · cases m' with
    | nil => exact ⟨[], by simpa using hm'.symm, by simpa using hr.symm⟩
    | cons c m' =>
      obtain ⟨d, l, rfl⟩ := List.exists_cons_of_ne_nil hl
      obtain rfl : 36 = c := (List.cons.inj hr).1
      have hdollar : (36 : UInt8) ∉ 123 :: (name' ++ [125]) := by
        have := not_mem_of_isName (b := 36) hname (by decide)
        simp [this]
      rw [placeholder, List.cons_append] at hm'
      rw [(List.cons.inj hm').2] at hdollar
      simp at hdollar
  · exact ⟨l', rfl, hm⟩

theorem fill_append_placeholder (h : isName name) :
    fill value? (l ++ (placeholder name ++ r)) =
      fill value? l ++ ((value? name).getD (placeholder name) ++ fill value? r) := by
  induction hlength : l.length using Nat.strongRecOn generalizing l with
  | ind n ih =>
    subst hlength
    cases l with
    | nil => rw [fill_nil, List.nil_append, List.nil_append, fill_placeholder_append h]
    | cons b l =>
      by_cases hopens : Opens (b :: l ++ (placeholder name ++ r))
      · obtain ⟨name', m, hname', heq⟩ := hopens
        obtain ⟨l', hl, rfl⟩ := eq_append_of_append_eq (List.cons_ne_nil b l) hname' heq
        have hshorter : l'.length < (b :: l).length := by
          rw [hl, List.length_append]
          simp [placeholder]
        rw [hl, List.append_assoc, fill_placeholder_append hname', fill_placeholder_append hname',
          ih _ hshorter rfl, List.append_assoc]
      · have hcopied : ¬ Opens (b :: l) := fun ⟨name', rest, hname', heq⟩ =>
          hopens ⟨name', rest ++ (placeholder name ++ r), hname', by rw [heq, List.append_assoc]⟩
        rw [List.cons_append] at hopens ⊢
        rw [fill_cons hopens, fill_cons hcopied, ih _ (Nat.lt_succ_self _) rfl, List.cons_append]

/-- There is no well-formed placeholder anywhere in the text. -/
def IsPlain (s : Bytes) : Prop := ∀ l name r, s = l ++ (placeholder name ++ r) → ¬ isName name

theorem fill_of_isPlain (h : IsPlain s) : fill value? s = s := by
  induction s with
  | nil => exact fill_nil
  | cons b s ih =>
    have hopens : ¬ Opens (b :: s) := fun ⟨name, rest, hname, heq⟩ => h [] name rest heq hname
    have hrest : IsPlain s := fun l name r heq => h (b :: l) name r (by rw [heq]; rfl)
    rw [fill_cons hopens, ih hrest]

/-- Every placeholder is replaced, and all else is copied. -/
structure Exact (value : Bytes → Bytes) (f : Bytes → Bytes) : Prop where
  copied : ∀ s, IsPlain s → f s = s
  replaced : ∀ l name r, isName name →
    f (l ++ (placeholder name ++ r)) = f l ++ (value name ++ f r)

theorem Exact.eq {value f g : Bytes → Bytes} (hf : Exact value f) (hg : Exact value g) : f = g := by
  funext s
  induction hlength : s.length using Nat.strongRecOn generalizing s with
  | ind n ih =>
    subst hlength
    by_cases h : IsPlain s
    · rw [hf.copied s h, hg.copied s h]
    · simp only [IsPlain, Classical.not_forall, Classical.not_not] at h
      obtain ⟨l, name, r, rfl, hname⟩ := h
      have hl : l.length < (l ++ (placeholder name ++ r)).length := by simp [placeholder]
      have hr : r.length < (l ++ (placeholder name ++ r)).length := by
        simp [placeholder]
        omega
      rw [hf.replaced l name r hname, hg.replaced l name r hname, ih _ hl l rfl, ih _ hr r rfl]

/-- What stands in place of a placeholder: the value of the variable; for an unbound `timestamp` the
calendar clock; and for any other name the placeholder as it is. -/
def textFor (vars : Variables) (calendar : Int) (name : Bytes) : Bytes :=
  match SortedMap.get? vars name with
  | some v => v
  | none =>
    if name = timestamp then Text.ofInt (Clock.toMillis calendar) else placeholder name

/-- Substitution replaces every placeholder and copies all else, and no other function does so; in
particular it does not look at the values that it puts in. -/
theorem exact_substitute (vars : Variables) (calendar : Int) :
    Exact (vars.textFor calendar) (vars.substitute calendar) ∧
      ∀ f, Exact (vars.textFor calendar) f → f = vars.substitute calendar := by
  have hvalue : ∀ name, (vars.value? calendar name).getD (placeholder name) =
      vars.textFor calendar name := by
    intro name
    unfold value? textFor
    cases SortedMap.get? vars name with
    | some v => rfl
    | none =>
      dsimp only
      split <;> rfl
  have hexact : Exact (vars.textFor calendar) (vars.substitute calendar) :=
    ⟨fun s h => fill_of_isPlain h, fun l name r h => by
      rw [← hvalue]
      exact fill_append_placeholder h⟩
  exact ⟨hexact, fun f hf => hf.eq hexact⟩

end LoadGenerator.Variables
