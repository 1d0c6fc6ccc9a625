import LoadGenerator.Guard.Memory
import LoadGenerator.Proofs.Text.Numeral

namespace LoadGenerator.Memory

open Numeral (IsNumeral Opens OpensWord Sign)

/-- The first member of a row to which a rule gives something, and what it gives. -/
def First {α β : Type} (rule : α → β → Prop) (l : List α) (a : α) (b : β) : Prop :=
  ∃ before after, l = before ++ a :: after ∧ (∀ x ∈ before, ∀ c, ¬rule x c) ∧ rule a b

section First

variable {α β : Type} {rule rule' : α → β → Prop} {f : α → Option β} {l : List α} {a : α} {b : β}

theorem eq_none_iff_of_rule (hf : ∀ b, f a = some b ↔ rule a b) : f a = none ↔ ∀ b, ¬rule a b := by
  rw [Option.eq_none_iff_forall_ne_some]
  exact forall_congr' fun b => not_congr (hf b)

theorem findSome?_eq_some_iff_first (hf : ∀ a b, f a = some b ↔ rule a b) :
    l.findSome? f = some b ↔ ∃ a, First rule l a b := by
  rw [List.findSome?_eq_some_iff]
  constructor
  · rintro ⟨before, a, after, hl, ha, hbefore⟩
    exact ⟨a, before, after, hl, fun x hx => (eq_none_iff_of_rule (hf x)).mp (hbefore x hx),
      (hf a b).mp ha⟩
  · rintro ⟨a, before, after, hl, hbefore, ha⟩
    exact ⟨before, a, after, hl, (hf a b).mpr ha, fun x hx =>
      (eq_none_iff_of_rule (hf x)).mpr (hbefore x hx)⟩

theorem findSome?_tagged_eq_some_iff (hf : ∀ a b, f a = some b ↔ rule a b) :
    l.findSome? (fun a => (f a).map (·, a)) = some (b, a) ↔ First rule l a b := by
  have htagged : ∀ x p, (f x).map (·, x) = some p ↔ rule x p.1 ∧ x = p.2 := by
    rintro x ⟨c, y⟩
    simp [← hf]
  rw [findSome?_eq_some_iff_first htagged]
  constructor
  · rintro ⟨_, before, after, hl, hbefore, ha, rfl⟩
    exact ⟨before, after, hl, fun x hx c hc => hbefore x hx (c, x) ⟨hc, rfl⟩, ha⟩
  · rintro ⟨before, after, hl, hbefore, ha⟩
    exact ⟨a, before, after, hl, fun x hx p hp => hbefore x hx p.1 hp.1, ha, rfl⟩

theorem First.congr (h : ∀ a ∈ l, ∀ b, rule a b ↔ rule' a b) :
    First rule l a b ↔ First rule' l a b := by
  refine exists_congr fun before => exists_congr fun after => and_congr_right fun hl => ?_
  have hbefore : ∀ x ∈ before, x ∈ l := fun x hx => hl ▸ List.mem_append_left _ hx
  have ha : a ∈ l := hl ▸ List.mem_append_right _ List.mem_cons_self
  refine and_congr (forall₂_congr fun x hx => forall_congr' fun c => not_congr ?_) (h a ha b)
  exact h x (hbefore x hx) c

end First

variable {text line rest : Bytes} {n : Nat}

/-- After spaces, a text begins with a numeral of `n`, and goes on with `rest`. -/
def Leads (text : Bytes) (n : Nat) (rest : Bytes) : Prop :=
  ∃ spaces s digits, text = spaces ++ s ∧ (∀ b ∈ spaces, b = 32) ∧ Opens s digits rest ∧
    Numeral.value digits = n

def isPadding (b : UInt8) : Bool := b == 10 || b == 32

theorem not_isPadding_of_isDigit {b : UInt8} (h : Bytes.isDigit b = true) :
    isPadding b = false := by
  have hb := Bytes.isDigit_iff.mp h
  have hpadding : isPadding b = true ↔ b.toNat = 10 ∨ b.toNat = 32 := by
    simp [isPadding, ← UInt8.toNat_inj]
  rw [Bool.eq_false_iff, ne_eq, hpadding]
  omega

theorem not_isDigit_of_isPadding {b : UInt8} (h : isPadding b = true) :
    Bytes.isDigit b = false := by
  by_contra hb
  rw [not_isPadding_of_isDigit (Bool.not_eq_false _ ▸ hb)] at h
  cases h

def stripped (text : Bytes) : Bytes :=
  (Bytes.dropRightWhile isPadding text).dropWhile (· == 32)

theorem leading?_eq_some_iff_read : leading? text = some n ↔
    ∃ rest, Numeral.read Word.largest (stripped text) = .ok (n, rest) := by
  rw [leading?]
  constructor
  · intro h
    split at h
    · next m rest hread =>
      obtain rfl := Option.some.inj h
      exact ⟨rest, hread⟩
    · cases h
  · rintro ⟨rest, hread⟩
    split
    · next m rest' hread' => cases hread.symm.trans hread'; rfl
    · next e hread' => cases hread.symm.trans hread'

theorem opens_stripped {spaces s digits : Bytes} (hspaces : ∀ b ∈ spaces, b = 32)
    (h : Opens s digits rest) :
    Opens (stripped (spaces ++ s)) digits (Bytes.dropRightWhile isPadding rest) := by
  obtain ⟨rfl, hdigits, hends⟩ := h
  have hlast : ∀ b ∈ (spaces ++ digits).getLast?, isPadding b = false := by
    intro b hb
    rw [List.getLast?_append_of_ne_nil _ hdigits.1] at hb
    exact not_isPadding_of_isDigit (hdigits.2 b (List.mem_of_getLast? hb))
  have hhead : ∀ b ∈ (digits ++ Bytes.dropRightWhile isPadding rest).head?, (b == 32) = false := by
    intro b hb
    rw [List.head?_append_of_ne_nil _ hdigits.1] at hb
    have hb := not_isPadding_of_isDigit (hdigits.2 b (List.mem_of_mem_head? hb))
    exact (Bool.or_eq_false_iff.mp hb).2
  refine ⟨?_, hdigits, fun b hb => hends b ?_⟩
  · rw [stripped, ← List.append_assoc, Bytes.dropRightWhile_append hlast, List.append_assoc]
    exact (Bytes.span_append (fun b hb => by simp [hspaces b hb]) hhead).2
  · simpa using Bytes.head_dropRightWhile_append (r := []) (by rwa [List.append_nil])

theorem exists_leads_of_opens {digits : Bytes} (h : Opens (stripped text) digits rest) :
    ∃ rest, Leads text (Numeral.value digits) rest := by
  obtain ⟨hs, hdigits, hends⟩ := h
  -- what has been dropped at the end of the text stands behind the numeral
  have htext : Bytes.dropRightWhile isPadding text ++ text.rtakeWhile isPadding = text :=
    List.rdropWhile_append_rtakeWhile
  have hends' : ∀ b ∈ (rest ++ text.rtakeWhile isPadding).head?, Bytes.isDigit b = false := by
    intro b hb
    cases rest with
    | nil => exact not_isDigit_of_isPadding (List.mem_rtakeWhile_imp (List.mem_of_mem_head? hb))
    | cons c rest => exact hends b hb
  refine ⟨rest ++ text.rtakeWhile isPadding,
    (Bytes.dropRightWhile isPadding text).takeWhile (· == 32), _, digits, ?_, fun b hb => ?_,
    ⟨rfl, hdigits, hends'⟩, rfl⟩
  · rw [← List.append_assoc digits, ← hs, stripped, ← List.append_assoc,
      List.takeWhile_append_dropWhile, htext]
  · simpa using List.mem_takeWhile_imp hb

theorem leading?_eq_some_iff :
    leading? text = some n ↔ (∃ rest, Leads text n rest) ∧ n ≤ Word.largest := by
  rw [leading?_eq_some_iff_read]
  constructor
  · rintro ⟨rest, hread⟩
    obtain ⟨digits, hopens, hfits, rfl⟩ := Numeral.read_eq_ok_iff.mp hread
    exact ⟨exists_leads_of_opens hopens, hfits⟩
  · rintro ⟨⟨rest, spaces, s, digits, rfl, hspaces, hopens, rfl⟩, hfits⟩
    exact ⟨_, Numeral.read_eq_ok_iff.mpr ⟨digits, opens_stripped hspaces hopens, hfits, rfl⟩⟩

theorem groupV2Limit?_eq_some_iff :
    groupV2Limit? text = some n ↔ (∃ rest, Leads text n rest) ∧ n < Word.largest := by
  rw [groupV2Limit?, Option.filter_eq_some_iff, leading?_eq_some_iff, and_assoc]
  refine and_congr_right fun _ => ?_
  simp only [ne_eq, decide_eq_true_eq]
  omega

theorem groupV1Limit?_eq_some_iff :
    groupV1Limit? text = some n ↔ (∃ rest, Leads text n rest) ∧ n < 1 <<< 60 := by
  have hlargest : 1 <<< 60 ≤ Word.largest := by decide
  rw [groupV1Limit?, Option.filter_eq_some_iff, leading?_eq_some_iff, and_assoc]
  refine and_congr_right fun _ => ?_
  rw [decide_eq_true_eq]
  omega

/-- A line tells a number after blanks and maybe a sign, and goes on with `rest`. -/
def Tells (line : Bytes) (sign : Sign) (n : Nat) (rest : Bytes) : Prop :=
  ∃ field digits, line = utf8 "MemTotal:" ++ field ∧ OpensWord field sign digits rest ∧
    Numeral.value digits = n

theorem field?_eq_some_iff {field : Bytes} :
    field? field = some (n, rest) ↔ Numeral.readWord field = .ok (n, rest) := by
  rw [field?]
  cases Numeral.readWord field <;> simp [Except.toOption]

theorem totalOfLine?_eq_some_iff : totalOfLine? line = some n ↔ ∃ sign k rest,
    Tells line sign k rest ∧ k ≤ Word.largest ∧ sign.apply k * 1024 % Word.count = n := by
  rw [totalOfLine?, Option.bind_eq_some_iff]
  constructor
  · rintro ⟨field, hfield, htotal⟩
    obtain ⟨⟨k, rest⟩, hk, rfl⟩ := Option.map_eq_some_iff.mp htotal
    obtain ⟨sign, digits, hopens, hfits, rfl⟩ :=
      Numeral.readWord_eq_ok_iff.mp (field?_eq_some_iff.mp hk)
    have hline := List.isPrefixOf?_eq_some_iff_append_eq.mp hfield
    exact ⟨sign, _, rest, ⟨field, digits, hline.symm, hopens, rfl⟩, hfits, rfl⟩
  · rintro ⟨sign, _, rest, ⟨field, digits, rfl, hopens, rfl⟩, hfits, rfl⟩
    refine ⟨field, List.isPrefixOf?_eq_some_iff_append_eq.mpr rfl, ?_⟩
    have hread := Numeral.readWord_eq_ok_iff.mpr ⟨sign, digits, hopens, hfits, rfl⟩
    rw [field?_eq_some_iff.mpr hread]
    rfl

/-- What is taken for a number of bytes in a text, and in a line of the system. -/
structure Reader where
  number : Bytes → Nat → Prop
  total : Bytes → Nat → Prop

/-- A number is taken from the front, with what follows left out. In a line it may be below zero or
become too large in bytes, and then begins again. -/
def front : Reader where
  number text n := ∃ rest, Leads text n rest
  total line n := ∃ sign k rest, Tells line sign k rest ∧ k ≤ Word.largest ∧
    sign.apply k * 1024 % Word.count = n

/-- A text is a number and nothing else but blanks around it and newlines at the end. In a line it
stands alone. -/
def whole : Reader where
  number text n := ∃ rest, Leads text n rest ∧ ∀ b ∈ rest, b = 10 ∨ b = 32
  total line n := ∃ k rest, Tells line .none k rest ∧
    (∀ b ∈ rest.head?, Numeral.isSpace b = true) ∧ k < 1 <<< 54 ∧ 1024 * k = n

namespace LimitSource

def order : List LimitSource := [groupV2, groupV1, system]

def file : LimitSource → Bytes
  | groupV2 => groupV2File
  | groupV1 => groupV1File
  | system => systemFile

def limit? : LimitSource → Bytes → Option Nat
  | groupV2 => groupV2Limit?
  | groupV1 => groupV1Limit?
  | system => systemLimit?

end LimitSource

/-- The text of a source has the limit `n`, as far as it is not one that stands for none. -/
def Reader.Limits (r : Reader) : LimitSource → Bytes → Nat → Prop
  | .groupV2, text, n => r.number text n ∧ n < Word.largest
  | .groupV1, text, n => r.number text n ∧ n < 1 <<< 60
  | .system, text, n => ∃ line, First r.total (Bytes.splitOn 10 text) line n

def Reader.Finds (r : Reader) (fs : Files) (s : LimitSource) (n : Nat) : Prop :=
  ∃ text, fs.read? s.file = some text ∧ r.Limits s text n

/-- The limit is that of the first source that has one. -/
inductive Takes (r : Reader) (fs : Files) : Option (Nat × LimitSource) → Prop
  | first {s : LimitSource} {n : Nat} (h : First (r.Finds fs) LimitSource.order s n) :
    Takes r fs (some (n, s))
  | nothing (h : ∀ s ∈ LimitSource.order, ∀ n, ¬r.Finds fs s n) : Takes r fs none

variable {fs : Files} {s : LimitSource} {found : Option (Nat × LimitSource)}

theorem limit?_eq_some_iff : s.limit? text = some n ↔ front.Limits s text n := by
  cases s with
  | groupV2 => exact groupV2Limit?_eq_some_iff
  | groupV1 => exact groupV1Limit?_eq_some_iff
  | system => exact findSome?_eq_some_iff_first fun line n => totalOfLine?_eq_some_iff

def found? (fs : Files) (s : LimitSource) : Option Nat := (fs.read? s.file).bind s.limit?

theorem found?_eq_some_iff : found? fs s = some n ↔ front.Finds fs s n := by
  rw [found?, Option.bind_eq_some_iff]
  exact exists_congr fun text => and_congr_right fun _ => limit?_eq_some_iff

theorem detect?_eq_findSome? (fs : Files) :
    detect? fs = LimitSource.order.findSome? fun s => (found? fs s).map (·, s) := by
  change ((found? fs .groupV2).map (·, LimitSource.groupV2)).or
    (((found? fs .groupV1).map (·, LimitSource.groupV1)).or
      ((found? fs .system).map (·, LimitSource.system))) = _
  simp only [LimitSource.order, List.findSome?_cons, List.findSome?_nil]
  cases found? fs .groupV2 <;> cases found? fs .groupV1 <;> cases found? fs .system <;> rfl

theorem detect?_eq_iff : detect? fs = found ↔ Takes front fs found := by
  have hfound : ∀ s n, found? fs s = some n ↔ front.Finds fs s n := fun s n => found?_eq_some_iff
  rw [detect?_eq_findSome?]
  constructor
  · intro h
    cases found with
    | none =>
      refine .nothing fun s hs => (eq_none_iff_of_rule (hfound s)).mp ?_
      exact Option.map_eq_none_iff.mp (List.findSome?_eq_none_iff.mp h s hs)
    | some p => exact .first ((findSome?_tagged_eq_some_iff hfound).mp h)
  · intro h
    cases h with
    | first h => exact (findSome?_tagged_eq_some_iff hfound).mpr h
    | nothing h =>
      refine List.findSome?_eq_none_iff.mpr fun s hs => Option.map_eq_none_iff.mpr ?_
      exact (eq_none_iff_of_rule (hfound s)).mpr (h s hs)

/-- Where a number would be taken from the front of a text or a line, it is all there is. -/
structure Tidy (fs : Files) : Prop where
  number : ∀ s text n, s = .groupV2 ∨ s = .groupV1 → fs.read? s.file = some text →
    front.Limits s text n → whole.number text n
  total : ∀ text line n, fs.read? systemFile = some text → line ∈ Bytes.splitOn 10 text →
    front.total line n → whole.total line n

theorem front_of_whole_number (h : whole.number text n) : front.number text n := by
  obtain ⟨rest, h, -⟩ := h
  exact ⟨rest, h⟩

theorem front_of_whole_total (h : whole.total line n) : front.total line n := by
  obtain ⟨k, rest, htells, -, hk, rfl⟩ := h
  have hcount : Word.count = 1 <<< 64 := rfl
  have hlargest : Word.largest = 1 <<< 64 - 1 := rfl
  have hsame : Sign.none.apply k = k := rfl
  refine ⟨.none, k, rest, htells, by omega, ?_⟩
  rw [hsame, Nat.mul_comm, Nat.mod_eq_of_lt (by omega)]

theorem Tidy.finds_iff (h : Tidy fs) : front.Finds fs s n ↔ whole.Finds fs s n := by
  refine exists_congr fun text => and_congr_right fun htext => ?_
  cases s with
  | groupV2 =>
    refine ⟨fun hn => ⟨h.number _ text n (.inl rfl) htext hn, hn.2⟩, fun hn => ?_⟩
    exact ⟨front_of_whole_number hn.1, hn.2⟩
  | groupV1 =>
    refine ⟨fun hn => ⟨h.number _ text n (.inr rfl) htext hn, hn.2⟩, fun hn => ?_⟩
    exact ⟨front_of_whole_number hn.1, hn.2⟩
  | system =>
    refine exists_congr fun line => First.congr fun line hline n => ?_
    exact ⟨h.total text line n htext hline, front_of_whole_total⟩

theorem Takes.congr {r r' : Reader} (h : ∀ s n, r.Finds fs s n ↔ r'.Finds fs s n)
    (htakes : Takes r fs found) : Takes r' fs found := by
  cases htakes with
  | first hfirst => exact .first ((First.congr fun s _ n => h s n).mp hfirst)
  | nothing hnothing => exact .nothing fun s hs n => mt (h s n).mpr (hnothing s hs n)

theorem Tidy.takes_iff (h : Tidy fs) : Takes front fs found ↔ Takes whole fs found :=
  ⟨Takes.congr fun _ _ => h.finds_iff, Takes.congr fun _ _ => h.finds_iff.symm⟩

/-- Which limit is detected, whatever stands in the files and whichever of them there are. -/
structure Detects (fs : Files) : Prop where
  front_iff : ∀ found, detect? fs = found ↔ Takes front fs found
  whole_iff : Tidy fs → ∀ found, detect? fs = found ↔ Takes whole fs found

theorem detects_limit (fs : Files) : Detects fs where
  front_iff _ := detect?_eq_iff
  whole_iff h _ := detect?_eq_iff.trans h.takes_iff

theorem detects_limit_system :
    let fs := Files.empty.create systemFile ⟨utf8 "MemTotal:       2048 kB\nMemFree: 1 kB\n", 0⟩
    Tidy fs ∧ Takes whole fs (some (2097152, .system)) := by
  intro fs
  have hfile : fs.read? systemFile =
      some (utf8 "MemTotal:       2048 kB\nMemFree: 1 kB\n") := by decide
  have htells : Tells (utf8 "MemTotal:       2048 kB") .none 2048 (utf8 " kB") :=
    ⟨_, utf8 "2048", rfl, @OpensWord.intro (utf8 "       ") (utf8 "2048 kB") _ _ .none
      (List.all_eq_true.mp (by decide)) ⟨rfl, by decide, by rintro _ ⟨⟩; rfl⟩, by decide⟩
  have hlines : Bytes.splitOn 10 (utf8 "MemTotal:       2048 kB\nMemFree: 1 kB\n") =
    [utf8 "MemTotal:       2048 kB", utf8 "MemFree: 1 kB", []] := by decide
  have htidy : Tidy fs := by
    constructor
    · intro s text n hs htext
      have hnone : ∀ s : LimitSource, s = .groupV2 ∨ s = .groupV1 → fs.read? s.file = none := by
        rintro s (rfl | rfl) <;> decide
      cases (hnone s hs).symm.trans htext
    · intro text line n htext hline hn
      obtain rfl := Option.some.inj (hfile.symm.trans htext)
      rw [hlines] at hline
      have hn := totalOfLine?_eq_some_iff.mpr hn
      rcases List.mem_cons.mp hline with rfl | hline
      · have htotal : totalOfLine? (utf8 "MemTotal:       2048 kB") = some 2097152 := by decide
        obtain rfl := Option.some.inj (htotal.symm.trans hn)
        exact ⟨2048, _, htells, by rintro _ ⟨⟩; rfl, by decide, rfl⟩
      · have hnone : ∀ l ∈ [utf8 "MemFree: 1 kB", []], totalOfLine? l = none := by decide
        cases (hnone line hline).symm.trans hn
  exact ⟨htidy, ((detects_limit fs).whole_iff htidy _).mp (by decide)⟩

theorem whole_number_forall (h : whole.number text n) :
    ∀ b ∈ text, Bytes.isDigit b = true ∨ isPadding b = true := by
  obtain ⟨rest, ⟨spaces, s, digits, rfl, hspaces, ⟨rfl, hdigits, -⟩, rfl⟩, hrest⟩ := h
  intro b hb
  rcases List.mem_append.mp hb with hb | hb
  · exact .inr (by simp [isPadding, hspaces b hb])
  · rcases List.mem_append.mp hb with hb | hb
    · exact .inl (hdigits.2 b hb)
    · exact .inr (by simpa [isPadding] using hrest b hb)

/-- What is written behind the digits of a limit does not keep it from being one. -/
theorem exists_read_in_part :
    let fs := Files.empty.create groupV2File ⟨utf8 "12abc", 0⟩
    detect? fs = some (12, .groupV2) ∧ ¬Takes whole fs (detect? fs) := by
  intro fs
  have hfile : fs.read? groupV2File = some (utf8 "12abc") := by decide
  have hdetect : detect? fs = some (12, .groupV2) := by decide
  refine ⟨hdetect, fun htakes => ?_⟩
  rw [hdetect] at htakes
  cases htakes with
  | first h =>
    obtain ⟨before, after, -, -, text, htext, hnumber, -⟩ := h
    obtain rfl := Option.some.inj (hfile.symm.trans htext)
    have hletter := whole_number_forall hnumber 97 (by decide)
    exact absurd hletter (by decide)

end LoadGenerator.Memory
