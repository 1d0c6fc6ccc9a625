import LoadGenerator.Data.Table
import Mathlib.Data.Int.CardIntervalMod

namespace LoadGenerator

namespace Table

variable {t : Table} {text : Bytes}

def turn (t : Table) (n : Nat) : Fin t.rows.length :=
  ⟨n % t.rows.length, Nat.mod_lt _ t.length_rows_pos⟩

theorem deal_eq {n : Nat} (h : n < Word.count) : t.deal n = t.rows.get (t.turn n) := by
  unfold deal turn
  congr 2
  rw [Nat.mod_eq_of_lt h]

theorem getElem?_turn {n : Nat} (h : n < Word.count) :
    t.rows[n % t.rows.length]? = some (t.deal n) := by
  rw [deal_eq h]
  exact List.getElem?_eq_getElem (t.turn n).isLt

theorem count_map_range {α : Type} [DecidableEq α] (f : Nat → α) (n : Nat) (a : α) :
    ((List.range n).map f).count a = Nat.count (fun j => f j = a) n := by
  rw [List.count, List.countP_map]
  rfl

theorem count_turns (t : Table) (first m : Nat) (i : Fin t.rows.length) :
    ((List.range (t.rows.length * m)).map fun j => t.turn (first + j)).count i = m := by
  have hpos := t.length_rows_pos
  have hturn (j : Nat) : t.turn (first + j) = i ↔ first + j ≡ i [MOD t.rows.length] := by
    rw [Fin.ext_iff, Nat.ModEq, Nat.mod_eq_of_lt i.isLt]
    rfl
  have hall := Nat.count_add (· ≡ (i : Nat) [MOD t.rows.length]) first (t.rows.length * m)
  rw [Nat.count_modEq_card _ hpos, Nat.count_modEq_card _ hpos, Nat.add_mul_div_left _ _ hpos,
    Nat.add_mul_mod_self_left] at hall
  simp only [count_map_range, hturn]
  omega

theorem exists_records (h : parse text = .ok t) : ∃ header records,
    Csv.parse text = .ok (header :: records) ∧ t.rows.length = records.length ∧
      1 ≤ records.length := by
  unfold parse at h
  split at h
  · cases h
  · next records hrecords =>
    cases records with
    | nil => cases h
    | cons header records =>
      rw [ofRecords] at h
      split at h
      · cases h
      · next hrows =>
        obtain rfl := Except.ok.inj h
        refine ⟨header, records, hrecords, List.length_map _, ?_⟩
        exact List.length_pos_iff.mpr fun hnil => hrows (by rw [hnil]; rfl)

end Table

namespace Dealers

open Table (turn)

def Request.place? : Request → Option Nat
  | .next place _ => some place
  | .rewind place => some place
  | .move _ _ => none

/-- Where the dealer of place `q` stands after a request, unless another one has taken its place. -/
def Request.follow (q : Nat) : Request → Option Nat
  | .next _ _ => some q
  | .rewind _ => some q
  | .move source target => if q = source then some target else if q = target then none else some q

/-- What comes of any requests, by any callers and in any order, where somebody stands whenever
there is something to be asked. The dealer that stood at `p` in the beginning has given the answers
of `past`, the newest first, and is now at `q`. -/
inductive Comes (start : Dealers) (p : Nat) : List (Option Row) → Dealers → Nat → Prop
  | start : Comes start p [] start p
  | asked {past : List (Option Row)} {s s' : Dealers} {q : Nat} {r : Request}
      {answer : Option Row} (h : Comes start p past s q) (hr : r.place? = some q)
      (hs : s.act r = some (answer, s')) : Comes start p (answer :: past) s' q
  | aside {past : List (Option Row)} {s s' : Dealers} {q q' : Nat} {r : Request}
      {answer : Option Row} (h : Comes start p past s q) (hr : r.place? ≠ some q)
      (hq : r.follow q = some q') (hs : s.act r = some (answer, s')) : Comes start p past s' q'

def sinceRewind (past : List (Option Row)) : Nat := (past.takeWhile Option.isSome).length

/-- Every row among the answers is the one whose turn it was. -/
def InTurn (t : Table) : List (Option Row) → Prop
  | [] => True
  | none :: past => InTurn t past
  | some row :: past => row = t.deal (sinceRewind past) ∧ InTurn t past

variable {t : Table} {start s s' : Dealers} {p q q' : Nat} {past earlier : List (Option Row)}
  {r : Request} {answer : Option Row}

theorem sinceRewind_rows (rows : List Row) (earlier : List (Option Row)) :
    sinceRewind (rows.map some ++ earlier) = rows.length + sinceRewind earlier := by
  rw [sinceRewind, List.takeWhile_append_of_pos (by simp), List.length_append, List.length_map]
  rfl

theorem act_asked {d : Dealer} (hd : s q = some d) (hr : r.place? = some q)
    (hs : s.act r = some (answer, s')) :
    (answer = some d.next.1 ∧ s' q = some d.next.2) ∨ (answer = none ∧ s' q = some d.rewind) := by
  cases r with
  | next place caller =>
    obtain rfl := Option.some.inj hr
    rw [act, hd] at hs
    obtain ⟨rfl, rfl⟩ := Prod.mk.inj (Option.some.inj hs)
    exact .inl ⟨rfl, if_pos rfl⟩
  | rewind place =>
    obtain rfl := Option.some.inj hr
    rw [act, hd] at hs
    obtain ⟨rfl, rfl⟩ := Prod.mk.inj (Option.some.inj hs)
    exact .inr ⟨rfl, if_pos rfl⟩
  | move source target => cases hr

theorem move_target (s : Dealers) (source target : Nat) : s.move source target target = s source := by
  unfold move
  split
  · next hsame => rw [hsame]
  · exact if_pos rfl

theorem move_of_ne {source target : Nat} (hsource : q ≠ source) (htarget : q ≠ target) :
    s.move source target q = s q := by
  unfold move
  split
  · rfl
  · exact (if_neg htarget).trans (if_neg hsource)

theorem act_aside (hr : r.place? ≠ some q) (hq : r.follow q = some q')
    (hs : s.act r = some (answer, s')) : s' q' = s q := by
  cases r with
  | next place caller =>
    obtain rfl := Option.some.inj hq
    obtain ⟨d, -, hd⟩ := Option.map_eq_some_iff.mp hs
    obtain ⟨rfl, rfl⟩ := Prod.mk.inj hd
    exact if_neg fun heq => hr (congrArg some heq.symm)
  | rewind place =>
    obtain rfl := Option.some.inj hq
    obtain ⟨d, -, hd⟩ := Option.map_eq_some_iff.mp hs
    obtain ⟨rfl, rfl⟩ := Prod.mk.inj hd
    exact if_neg fun heq => hr (congrArg some heq.symm)
  | move source target =>
    obtain ⟨d, -, hd⟩ := Option.map_eq_some_iff.mp hs
    obtain ⟨rfl, rfl⟩ := Prod.mk.inj hd
    rw [Request.follow] at hq
    split at hq
    · next hsource =>
      obtain rfl := Option.some.inj hq
      rw [hsource, move_target]
    · next hsource =>
      split at hq
      · cases hq
      · next htarget =>
        obtain rfl := Option.some.inj hq
        exact move_of_ne hsource htarget

namespace Comes

theorem stands (h : Comes start p past s q) (hp : start p = some (.ofTable t)) :
    s q = some ⟨t, sinceRewind past⟩ := by
  induction h with
  | start => exact hp
  | asked h hr hs ih =>
    obtain ⟨rfl, hnext⟩ | ⟨rfl, hrewind⟩ := act_asked ih hr hs
    · exact hnext
    · exact hrewind
  | aside h hr hq hs ih => rw [act_aside hr hq hs, ih]

theorem inTurn (h : Comes start p past s q) (hp : start p = some (.ofTable t)) : InTurn t past := by
  induction h with
  | start => trivial
  | asked h hr hs ih =>
    obtain ⟨rfl, -⟩ | ⟨rfl, -⟩ := act_asked (h.stands hp) hr hs
    · exact ⟨rfl, ih⟩
    · exact ih
  | aside h hr hq hs ih => exact ih

end Comes

namespace InTurn

theorem of_append {later : List (Option Row)} (h : InTurn t (later ++ earlier)) :
    InTurn t earlier := by
  induction later with
  | nil => exact h
  | cons answer later ih =>
    cases answer with
    | none => exact ih h
    | some row => exact ih h.2

theorem rows_eq {rows : List Row} (h : InTurn t (rows.map some ++ earlier)) :
    rows.reverse = (List.range rows.length).map fun j => t.deal (sinceRewind earlier + j) := by
  induction rows with
  | nil => rfl
  | cons row rows ih =>
    have hrow : row = t.deal (sinceRewind (rows.map some ++ earlier)) := h.1
    rw [sinceRewind_rows, Nat.add_comm] at hrow
    rw [List.reverse_cons, ih h.2, hrow, List.length_cons, List.range_succ, List.map_append]
    rfl

end InTurn

structure DealsEvenly (t : Table) (past : List (Option Row)) (s : Dealers) (q : Nat) : Prop where
  stands : s q = some ⟨t, sinceRewind past⟩
  next : sinceRewind past < Word.count → ∀ caller, ∃ row s',
    t.rows[sinceRewind past % t.rows.length]? = some row ∧
      s.act (.next q caller) = some (some row, s')
  dealt : ∀ later row earlier, past = later ++ some row :: earlier →
    sinceRewind earlier < Word.count → t.rows[sinceRewind earlier % t.rows.length]? = some row
  even : ∀ later rows earlier m, past = later ++ rows.map some ++ earlier →
    rows.length = t.rows.length * m → sinceRewind earlier + rows.length ≤ Word.count →
      ∃ turns : List (Fin t.rows.length), rows = turns.map t.rows.get ∧ ∀ i, turns.count i = m

/-- Whoever asks, and wherever the dealer of a table that has been read is taken in between, its
rows are dealt in turn. -/
theorem deals_evenly {text : Bytes} (ht : Table.parse text = .ok t)
    (hp : start p = some (.ofTable t)) (h : Comes start p past s q) :
    (∃ header records, Csv.parse text = .ok (header :: records) ∧
      t.rows.length = records.length ∧ 1 ≤ records.length) ∧ DealsEvenly t past s q := by
  have hstands := h.stands hp
  have hturns := h.inTurn hp
  refine ⟨Table.exists_records ht, hstands, fun hword caller => ?_, ?_, ?_⟩
  · refine ⟨_, s.put q ⟨t, sinceRewind past + 1⟩, Table.getElem?_turn hword, ?_⟩
    rw [act, hstands]
    rfl
  · rintro later row earlier rfl hword
    obtain ⟨rfl, -⟩ := hturns.of_append
    exact Table.getElem?_turn hword
  · rintro later rows earlier m rfl hlength hword
    rw [List.append_assoc] at hturns
    have hrows := hturns.of_append.rows_eq
    let turns := (List.range rows.length).map fun j => t.turn (sinceRewind earlier + j)
    refine ⟨turns.reverse, ?_, fun i => ?_⟩
    · have hdeal : rows.reverse = turns.map t.rows.get := by
        rw [hrows, List.map_map]
        refine List.map_congr_left fun j hj => Table.deal_eq ?_
        have := List.mem_range.mp hj
        omega
      rw [List.map_reverse, ← hdeal, List.reverse_reverse]
    · rw [List.count_reverse]
      simp only [turns, hlength]
      exact t.count_turns _ m i

theorem deals_evenly_moved :
    let a : Row := [(utf8 "u", utf8 "a")]
    let b : Row := [(utf8 "u", utf8 "b")]
    ∃ t s, Table.parse (utf8 "u\na\nb\n") = .ok t ∧ ofTable t 0 = some (.ofTable t) ∧
      Comes (ofTable t) 0 [some b, some a] s 7 ∧ DealsEvenly t [some b, some a] s 7 ∧
      ∃ s', s.act (.next 7 3) = some (some a, s') := by
  intro a b
  let t : Table := ⟨[utf8 "u"], [a, b], List.cons_ne_nil _ _⟩
  have ht : Table.parse (utf8 "u\na\nb\n") = .ok t := by rfl
  have h₁ : Comes (ofTable t) 0 [some a] _ 0 := .asked .start (r := .next 0 1) rfl rfl
  have h₂ : Comes (ofTable t) 0 [some a] _ 7 := .aside h₁ (r := .move 0 7) nofun rfl rfl
  have h₃ : Comes (ofTable t) 0 [some b, some a] _ 7 := .asked h₂ (r := .next 7 2) rfl rfl
  have h := (deals_evenly ht rfl h₃).2
  obtain ⟨row, s', hrow, hnext⟩ := h.next (by decide) 3
  have hfirst : t.rows[sinceRewind [some b, some a] % t.rows.length]? = some a := by
    simp [t, sinceRewind]
  obtain rfl : a = row := Option.some.inj (hfirst.symm.trans hrow)
  exact ⟨t, _, ht, rfl, h₃, h, s', hnext⟩

end Dealers

end LoadGenerator
