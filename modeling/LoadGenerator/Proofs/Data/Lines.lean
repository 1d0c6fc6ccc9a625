import LoadGenerator.Proofs.Data.Csv
import Mathlib.Data.List.Induction

namespace LoadGenerator.Csv

/-- Where a byte stands, by the bytes before it. -/
inductive Place where
  | start
  | bare
  | inside
  | closing
  /-- Behind a carriage return that has ended a line, which a line feed may belong to. -/
  | returned
  deriving DecidableEq

namespace Place

def next : Place → UInt8 → Place
  | .inside, b => if b = 34 then .closing else .inside
  | p, b =>
    if b = 34 then (if p = .bare then .bare else .inside)
    else if b = 13 then .returned
    else if b = 44 ∨ b = 10 then .start
    else .bare

def after (p : Place) (s : Bytes) : Place := s.foldl next p

def IsOpen (p : Place) : Prop := p = .start ∨ p = .returned

instance (p : Place) : Decidable p.IsOpen := inferInstanceAs (Decidable (_ ∨ _))

/-- The text does not go on with the byte that could belong to the one before it. -/
structure Parts (p : Place) (s : Bytes) : Prop where
  closing : p = .closing → s.head? ≠ some 34
  returned : p = .returned → s.head? ≠ some 10

def loneReturns : Place → Bytes → Nat
  | _, [] => 0
  | p, b :: s =>
    (if b = 13 ∧ p ≠ .inside ∧ s.head? ≠ some 10 then 1 else 0) + loneReturns (p.next b) s

end Place

/-- A reader that takes one byte at a time. -/
structure Scanner where
  reader : Reader
  place : Place
  /-- The line of the last quote that has opened a field. -/
  opened : Nat

namespace Scanner

def fresh : Scanner := ⟨.fresh, .start, 0⟩

def takeInside (r : Reader) (b : UInt8) : Reader :=
  if b = 34 then r else if b = 10 then (r.push b).newLine else r.push b

def takeOutside (p : Place) (r : Reader) (b : UInt8) : Reader :=
  if b = 34 then (if p = .bare ∨ p = .closing then r.push b else { r with quoted := true })
  else if b = 44 then r.endField
  else if b = 10 ∧ p = .returned then r
  else if b = 13 ∨ b = 10 then r.endRecord.newLine
  else r.push b

def feed (x : Scanner) (b : UInt8) : Scanner :=
  { reader := if x.place = .inside then takeInside x.reader b else takeOutside x.place x.reader b
    place := x.place.next b
    opened := if x.place.IsOpen ∧ b = 34 then x.reader.line else x.opened }

def feedAll (x : Scanner) (s : Bytes) : Scanner := s.foldl feed x

def result (x : Scanner) : Except Nat Reader :=
  if x.place = .inside then .error x.opened else .ok x.reader

structure Outside (x : Scanner) : Prop where
  place : x.place ≠ .inside
  isOpen : x.place.IsOpen ↔ x.reader.field = [] ∧ x.reader.quoted = false

end Scanner

namespace Scanner

variable {x : Scanner} {r : Reader} {p : Place} {opened : Nat} {b : UInt8}

theorem feedAll_cons (x : Scanner) (b : UInt8) (s : Bytes) :
    x.feedAll (b :: s) = (x.feed b).feedAll s := rfl

theorem feed_comma (hp : p ≠ .inside) :
    feed ⟨r, p, opened⟩ 44 = ⟨r.endField, .start, opened⟩ := by
  cases p <;> simp_all [feed, takeOutside, Place.next]

theorem feed_return (hp : p ≠ .inside) :
    feed ⟨r, p, opened⟩ 13 = ⟨r.endRecord.newLine, .returned, opened⟩ := by
  cases p <;> simp_all [feed, takeOutside, Place.next]

theorem feed_lineFeed (hp : p ≠ .inside) (hreturned : p ≠ .returned) :
    feed ⟨r, p, opened⟩ 10 = ⟨r.endRecord.newLine, .start, opened⟩ := by
  cases p <;> simp_all [feed, takeOutside, Place.next]

theorem feed_returned : feed ⟨r, .returned, opened⟩ 10 = ⟨r, .start, opened⟩ := by
  simp [feed, takeOutside, Place.next]

theorem feed_ordinary (hp : p ≠ .inside) (hb : Ordinary b) :
    feed ⟨r, p, opened⟩ b = ⟨r.push b, .bare, opened⟩ := by
  obtain ⟨hquote, hcomma, hcr, hlf⟩ := hb
  cases p <;> simp_all [feed, takeOutside, Place.next]

theorem feed_bare : feed ⟨r, .bare, opened⟩ 34 = ⟨r.push 34, .bare, opened⟩ := by
  simp [feed, takeOutside, Place.next, Place.IsOpen]

theorem feed_opening (hp : p.IsOpen) :
    feed ⟨r, p, opened⟩ 34 = ⟨{ r with quoted := true }, .inside, r.line⟩ := by
  obtain rfl | rfl := hp <;> simp [feed, takeOutside, Place.next, Place.IsOpen]

theorem feed_closing : feed ⟨r, .closing, opened⟩ 34 = ⟨r.push 34, .inside, opened⟩ := by
  simp [feed, takeOutside, Place.next, Place.IsOpen]

theorem feed_inside :
    feed ⟨r, .inside, opened⟩ b =
      ⟨takeInside r b, if b = 34 then .closing else .inside, opened⟩ := by
  simp [feed, Place.next, Place.IsOpen]

theorem Outside.of_isOpen (hp : p.IsOpen) (hf : r.field = []) (hq : r.quoted = false) :
    Outside ⟨r, p, opened⟩ := by
  refine ⟨?_, iff_of_true hp ⟨hf, hq⟩⟩
  obtain rfl | rfl := hp <;> nofun

theorem outside_push : Outside ⟨r.push b, .bare, opened⟩ :=
  ⟨nofun, by simp [Place.IsOpen, Reader.push]⟩

theorem outside_closing (hq : r.quoted = true) : Outside ⟨r, .closing, opened⟩ :=
  ⟨nofun, by simp [Place.IsOpen, hq]⟩

end Scanner

open Scanner

theorem Place.parts_start (s : Bytes) : Place.start.Parts s := ⟨nofun, nofun⟩

theorem Place.parts_bare (s : Bytes) : Place.bare.Parts s := ⟨nofun, nofun⟩

theorem Place.parts_closing {s : Bytes} (h : s.head? ≠ some 34) : Place.closing.Parts s :=
  ⟨fun _ => h, nofun⟩

theorem Place.parts_returned {s : Bytes} (h : s.head? ≠ some 10) : Place.returned.Parts s :=
  ⟨nofun, fun _ => h⟩

theorem plain_eq_and_quoted_eq :
    (∀ (r : Reader) (s : Bytes) (p : Place) (opened : Nat), Outside ⟨r, p, opened⟩ → p.Parts s →
      plain r s = (feedAll ⟨r, p, opened⟩ s).result) ∧
    ∀ (r : Reader) (opened : Nat) (s : Bytes), r.quoted = true →
      quoted r opened s = (feedAll ⟨r, .inside, opened⟩ s).result := by
  refine plain.mutual_induct _ _ ?_ ?_ ?_ ?_ ?_ ?_ ?_ ?_ ?_ ?_ ?_ ?_
  case refine_1 =>
    intro r p opened hx _
    simp [plain, feedAll, result, hx.place]
  case refine_2 =>
    intro r s ih p opened hx _
    rw [plain, feedAll_cons, feedAll_cons, feed_return hx.place, feed_returned]
    exact ih _ _ (.of_isOpen (.inl rfl) rfl rfl) (Place.parts_start s)
  case refine_3 =>
    intro r s hopen _ ih p opened hx _
    have hfield : r.field = [] ∧ r.quoted = false := by simpa using hopen
    rw [plain_quote hfield.1 hfield.2, feedAll_cons, feed_opening (hx.isOpen.mpr hfield)]
    exact ih rfl
  case refine_4 =>
    intro r s hopen hcr ih p opened hx hparts
    have hbare : p = .bare := by
      have hnot : ¬p.IsOpen := by simpa using mt hx.isOpen.mp (by simpa using hopen)
      have hclosing : p ≠ .closing := fun h => hparts.closing h rfl
      have := hx.place
      cases p <;> simp_all [Place.IsOpen]
    subst hbare
    rw [plain, if_pos rfl, if_neg hopen, feedAll_cons, feed_bare]
    · exact ih _ _ outside_push (Place.parts_bare s)
    · exact hcr
  case refine_5 =>
    intro r s _ _ ih p opened hx _
    rw [plain_comma, feedAll_cons, feed_comma hx.place]
    exact ih _ _ (.of_isOpen (.inl rfl) rfl rfl) (Place.parts_start s)
  case refine_6 =>
    intro r b s hcr hquote hcomma hb ih p opened hx hparts
    have hread : plain r (b :: s) = plain r.endRecord.newLine s := by
      rw [plain, if_neg hquote, if_neg hcomma, if_pos hb]
      exact hcr
    rw [hread, feedAll_cons]
    obtain rfl | rfl := hb
    · rw [feed_return hx.place]
      refine ih _ _ (.of_isOpen (.inr rfl) rfl rfl) (Place.parts_returned fun hs => ?_)
      obtain ⟨s', rfl⟩ := List.head?_eq_some_iff.mp hs
      exact hcr s' rfl rfl
    · rw [feed_lineFeed hx.place fun h => hparts.returned h rfl]
      exact ih _ _ (.of_isOpen (.inl rfl) rfl rfl) (Place.parts_start s)
  case refine_7 =>
    intro r b s _ hquote hcomma hb ih p opened hx _
    have hord : Ordinary b := ⟨hquote, hcomma, fun h => hb (.inl h), fun h => hb (.inr h)⟩
    rw [plain_ordinary hord, feedAll_cons, feed_ordinary hx.place hord]
    exact ih _ _ outside_push (Place.parts_bare s)
  case refine_8 =>
    intro r opened _
    simp [quoted, feedAll, result]
  case refine_9 =>
    intro r opened s ih hq
    rw [quoted, feedAll_cons, feedAll_cons, feed_inside, takeInside, if_pos rfl, if_pos rfl,
      feed_closing]
    exact ih hq
  case refine_10 =>
    intro r opened s hs ih hq
    have hhead : s.head? ≠ some 34 := by
      intro h
      obtain ⟨s', rfl⟩ := List.head?_eq_some_iff.mp h
      exact hs s' rfl rfl
    rw [quoted_close _ hhead, feedAll_cons, feed_inside, takeInside, if_pos rfl, if_pos rfl]
    exact ih _ _ (outside_closing hq) (Place.parts_closing hhead)
  case refine_11 =>
    intro r opened s hs hne ih hq
    rw [quoted, if_neg hne, if_pos rfl, feedAll_cons, feed_inside, takeInside, if_neg hne,
      if_pos rfl, if_neg hne]
    · exact ih hq
    · exact hs
  case refine_12 =>
    intro r opened b s hs hne hlf ih hq
    rw [quoted, if_neg hne, if_neg hlf, feedAll_cons, feed_inside, takeInside, if_neg hne,
      if_neg hlf, if_neg hne]
    · exact ih hq
    · exact hs

theorem parse_eq (s : Bytes) : parse s = ((feedAll .fresh s).result).map Reader.finish :=
  congrArg (Except.map Reader.finish)
    (plain_eq_and_quoted_eq.1 .fresh s .start 0 (.of_isOpen (.inl rfl) rfl rfl)
      (Place.parts_start s))

namespace Scanner

variable {x y : Scanner} {s t : Bytes} {b : UInt8}

theorem feedAll_append (x : Scanner) (s t : Bytes) :
    x.feedAll (s ++ t) = (x.feedAll s).feedAll t :=
  List.foldl_append

theorem feedAll_concat (x : Scanner) (s : Bytes) (b : UInt8) :
    x.feedAll (s ++ [b]) = (x.feedAll s).feed b :=
  feedAll_append x s [b]

theorem place_feedAll (x : Scanner) (s : Bytes) : (x.feedAll s).place = x.place.after s := by
  induction s generalizing x with
  | nil => rfl
  | cons b s ih => exact ih (x.feed b)

theorem place_feed_eq_returned :
    (x.feed b).place = .returned ↔ b = 13 ∧ x.place ≠ .inside := by
  obtain ⟨r, p, opened⟩ := x
  cases p <;> simp only [feed, Place.next] <;> grind

theorem line_feed (x : Scanner) (b : UInt8) : (x.feed b).reader.line = x.reader.line +
    if b = 10 ∧ x.place ≠ .returned ∨ b = 13 ∧ x.place ≠ .inside then 1 else 0 := by
  obtain ⟨r, p, opened⟩ := x
  cases p <;> simp only [feed, takeInside, takeOutside] <;>
    grind [Reader.push, Reader.endField, Reader.endRecord, Reader.newLine]

theorem line_feedAll (x : Scanner) (s : Bytes) :
    (x.feedAll s).reader.line + (if x.place = .returned ∧ s.head? = some 10 then 1 else 0) =
      x.reader.line + (s.count 10 + x.place.loneReturns s) := by
  induction s generalizing x with
  | nil => simp [feedAll, Place.loneReturns]
  | cons b s ih =>
    have h := ih (x.feed b)
    have hplace : (x.feed b).place = x.place.next b := rfl
    have hreturned := place_feed_eq_returned (x := x) (b := b)
    rw [line_feed, hplace] at h
    rw [hplace] at hreturned
    rw [feedAll_cons, Place.loneReturns, List.count_cons, List.head?_cons]
    by_cases hlf : b = 10
    · subst hlf
      grind
    · grind

theorem atField_feed (h : x.place ≠ .inside) (hb : b = 13 ∨ b = 10)
    (hreturned : x.place = .returned → x.reader.AtField x.reader.records []) :
    (x.feed b).reader.AtField (x.feed b).reader.records [] := by
  obtain ⟨r, p, opened⟩ := x
  obtain rfl | rfl := hb
  · rw [feed_return h]
    exact ⟨rfl, rfl, rfl, rfl⟩
  · by_cases hp : p = .returned
    · subst hp
      rw [feed_returned]
      exact hreturned rfl
    · rw [feed_lineFeed h hp]
      exact ⟨rfl, rfl, rfl, rfl⟩

theorem atField_of_returned (h : (feedAll .fresh s).place = .returned) :
    (feedAll .fresh s).reader.AtField (feedAll .fresh s).reader.records [] := by
  induction s using List.reverseRecOn with
  | nil => cases h
  | append_singleton s b ih =>
    rw [feedAll_concat] at h ⊢
    obtain ⟨hb, hplace⟩ := place_feed_eq_returned.mp h
    exact atField_feed hplace (.inl hb) ih

theorem atField_of_ends (h : (feedAll .fresh s).place ≠ .inside) (hend : s.getLast? = some 10) :
    (feedAll .fresh s).place = .start ∧
      (feedAll .fresh s).reader.AtField (feedAll .fresh s).reader.records [] := by
  obtain ⟨s, rfl⟩ := List.getLast?_eq_some_iff.mp hend
  rw [feedAll_concat] at h ⊢
  have hplace : (feedAll .fresh s).place ≠ .inside := by
    intro hinside
    exact h (by simp [feed, hinside, Place.next])
  refine ⟨?_, atField_feed hplace (.inr rfl) atField_of_returned⟩
  generalize feedAll .fresh s = x at hplace
  obtain ⟨r, p, opened⟩ := x
  cases p <;> simp_all [feed, Place.next]

end Scanner

namespace Reader

/-- A reader that has read some records and lines before. -/
def behind (records : List Record) (lines : Nat) (r : Reader) : Reader :=
  { r with records := r.records ++ records, line := r.line + lines }

variable {records : List Record} {lines : Nat} {r : Reader}

theorem keep_append (record : Record) (others : List Record) :
    keep record (others ++ records) = keep record others ++ records := by
  unfold keep
  split <;> rfl

theorem endRecord_behind :
    (r.behind records lines).endRecord = r.endRecord.behind records lines := by
  simp [behind, endRecord, endField, keep_append]

theorem newLine_behind :
    (r.behind records lines).newLine = r.newLine.behind records lines := by
  simp [behind, newLine, Nat.add_right_comm]

theorem finish_behind : (r.behind records lines).finish = records.reverse ++ r.finish := by
  by_cases h : (r.field.isEmpty && !r.quoted && r.record.isEmpty) = true
  · have h' : ((r.behind records lines).field.isEmpty && !(r.behind records lines).quoted &&
        (r.behind records lines).record.isEmpty) = true := h
    simp only [finish, h, h', if_true]
    exact List.reverse_append
  · have h' : ¬((r.behind records lines).field.isEmpty && !(r.behind records lines).quoted &&
        (r.behind records lines).record.isEmpty) = true := h
    simp only [finish, h, h', endRecord_behind]
    exact List.reverse_append

end Reader

namespace Scanner

structure Lockstep (R : Reader → Reader → Prop) (lines : Nat) : Prop where
  line {r r' : Reader} (h : R r r') : r'.line = r.line + lines
  inside {r r' : Reader} (h : R r r') (b : UInt8) : R (takeInside r b) (takeInside r' b)
  outside {r r' : Reader} (h : R r r') (p : Place) (b : UInt8) :
    R (takeOutside p r b) (takeOutside p r' b)

structure Abreast (R : Reader → Reader → Prop) (lines : Nat) (x y : Scanner) : Prop where
  reader : R x.reader y.reader
  place : y.place = x.place
  opened : x.place = .inside ∨ x.place = .closing → y.opened = x.opened + lines

variable {R : Reader → Reader → Prop} {x y : Scanner} {records : List Record} {lines : Nat}
  {s : Bytes} {b : UInt8}

theorem Abreast.feed (hR : Lockstep R lines) (h : Abreast R lines x y) (b : UInt8) :
    Abreast R lines (x.feed b) (y.feed b) := by
  obtain ⟨hreader, hplace, hopened⟩ := h
  constructor
  case reader =>
    simp only [Scanner.feed, hplace]
    split
    · exact hR.inside hreader b
    · exact hR.outside hreader _ b
  case place => rw [Scanner.feed, hplace]; rfl
  case opened =>
    simp only [Scanner.feed, hplace, hR.line hreader]
    generalize x.place = p at *
    cases p <;> simp_all [Place.next, Place.IsOpen] <;> grind

theorem Abreast.feedAll (hR : Lockstep R lines) (h : Abreast R lines x y) (s : Bytes) :
    Abreast R lines (x.feedAll s) (y.feedAll s) := by
  induction s generalizing x y with
  | nil => exact h
  | cons b s ih => exact ih (h.feed hR b)

theorem Abreast.result (h : Abreast R lines x y) :
    (∃ line, x.result = .error line ∧ y.result = .error (line + lines)) ∨
      ∃ r r', x.result = .ok r ∧ y.result = .ok r' ∧ R r r' := by
  unfold Scanner.result
  rw [h.place]
  split
  · next hp => exact .inl ⟨x.opened, rfl, by rw [h.opened (.inl hp)]⟩
  · exact .inr ⟨_, _, rfl, rfl, h.reader⟩

structure Trails (records : List Record) (lines : Nat) (x y : Scanner) : Prop where
  reader : y.reader = x.reader.behind records lines
  place : y.place = x.place
  opened : x.place = .inside ∨ x.place = .closing → y.opened = x.opened + lines

theorem takeInside_behind (r : Reader) (b : UInt8) :
    takeInside (r.behind records lines) b = (takeInside r b).behind records lines := by
  unfold takeInside
  split
  · rfl
  · split
    · exact Reader.newLine_behind (r := r.push b)
    · rfl

theorem takeOutside_behind (p : Place) (r : Reader) (b : UInt8) :
    takeOutside p (r.behind records lines) b = (takeOutside p r b).behind records lines := by
  unfold takeOutside
  split
  · split <;> rfl
  split
  · rfl
  split
  · rfl
  split
  · rw [Reader.endRecord_behind, Reader.newLine_behind]
  · rfl

theorem lockstep_behind (records : List Record) (lines : Nat) :
    Lockstep (fun r r' => r' = r.behind records lines) lines where
  line h := h ▸ rfl
  inside h b := h ▸ takeInside_behind _ b
  outside h p b := h ▸ takeOutside_behind p _ b

theorem Trails.abreast (h : Trails records lines x y) :
    Abreast (fun r r' => r' = r.behind records lines) lines x y :=
  ⟨h.reader, h.place, h.opened⟩

theorem Trails.feedAll (h : Trails records lines x y) (s : Bytes) :
    Trails records lines (x.feedAll s) (y.feedAll s) := by
  obtain ⟨hreader, hplace, hopened⟩ := h.abreast.feedAll (lockstep_behind records lines) s
  exact ⟨hreader, hplace, hopened⟩

theorem Trails.result (h : Trails records lines x y) :
    y.result = (x.result.map (·.behind records lines)).mapError (· + lines) := by
  rcases h.abreast.result with ⟨line, hx, hy⟩ | ⟨r, r', hx, hy, rfl⟩ <;> rw [hx, hy] <;> rfl

end Scanner

theorem trails_of_ends {a : Bytes} {r : Reader} (ha : (feedAll .fresh a).result = .ok r)
    (hend : a.getLast? = some 10) :
    Trails r.records (a.count 10 + Place.start.loneReturns a) .fresh (feedAll .fresh a) ∧
      r.AtField r.records [] := by
  have hplace : (feedAll .fresh a).place ≠ .inside := by
    intro h
    rw [result, if_pos h] at ha
    cases ha
  rw [result, if_neg hplace] at ha
  obtain rfl := Except.ok.inj ha
  obtain ⟨hstart, hfield⟩ := atField_of_ends hplace hend
  have hline : (feedAll .fresh a).reader.line = 1 + (a.count 10 + Place.start.loneReturns a) :=
    line_feedAll .fresh a
  refine ⟨⟨?_, hstart, nofun⟩, hfield⟩
  obtain ⟨-, hrecord, hf, hq⟩ := hfield
  generalize (feedAll .fresh a).reader = r at *
  obtain ⟨records, record, field, quoted, line⟩ := r
  simp_all [Reader.behind, Scanner.fresh, Reader.fresh]

/-- A text whose last field has been opened by a quote that is not closed. -/
structure LeftOpen (s before : Bytes) (line : Nat) : Prop where
  place : (Place.start.after before).IsOpen
  rest : ∃ field : Bytes, s = before ++ 34 :: field.flatMap inQuotes
  line : line = (feedAll .fresh before).reader.line

theorem LeftOpen.append {s before : Bytes} {line : Nat} (h : LeftOpen s before line) (b : UInt8) :
    LeftOpen (s ++ inQuotes b) before line := by
  obtain ⟨hplace, ⟨field, hs⟩, hline⟩ := h
  refine ⟨hplace, ⟨field ++ [b], ?_⟩, hline⟩
  rw [hs, List.flatMap_append, List.flatMap_singleton, List.append_assoc, List.cons_append]

theorem exists_leftOpen_feedAll (s : Bytes) :
    ((feedAll .fresh s).place = .inside →
      ∃ before, LeftOpen s before (feedAll .fresh s).opened) ∧
    ((feedAll .fresh s).place = .closing →
      ∃ s' before, s = s' ++ [34] ∧ LeftOpen s' before (feedAll .fresh s).opened) := by
  induction s using List.reverseRecOn with
  | nil => exact ⟨nofun, nofun⟩
  | append_singleton s b ih =>
    obtain ⟨hinside, hclosing⟩ := ih
    have hplace : (feedAll .fresh s).place = Place.start.after s := place_feedAll .fresh s
    have hself : (feedAll .fresh s).place.IsOpen →
        LeftOpen (s ++ [34]) s (feedAll .fresh s).reader.line :=
      fun h => ⟨hplace ▸ h, ⟨[], rfl⟩, rfl⟩
    rw [feedAll_concat]
    generalize feedAll .fresh s = x at hinside hclosing hself
    obtain ⟨r, p, opened⟩ := x
    by_cases hb : b = 34
    · subst hb
      cases p with
      | start | returned =>
        rw [feed_opening (by simp [Place.IsOpen])]
        exact ⟨fun _ => ⟨s, hself (by simp [Place.IsOpen])⟩, nofun⟩
      | bare =>
        rw [feed_bare]
        exact ⟨nofun, nofun⟩
      | inside =>
        rw [feed_inside]
        obtain ⟨before, h⟩ := hinside rfl
        exact ⟨nofun, fun _ => ⟨s, before, rfl, h⟩⟩
      | closing =>
        rw [feed_closing]
        obtain ⟨s', before, rfl, h⟩ := hclosing rfl
        refine ⟨fun _ => ⟨before, ?_⟩, nofun⟩
        rw [List.append_assoc]
        exact h.append 34
    · have hnext : (Scanner.feed ⟨r, p, opened⟩ b).place ≠ .closing := by
        cases p <;> simp only [Scanner.feed, Place.next] <;> grind
      refine ⟨fun h => ?_, fun h => absurd h hnext⟩
      obtain rfl : p = .inside := by
        cases p <;> simp only [Scanner.feed, Place.next] at h <;> grind
      obtain ⟨before, h⟩ := hinside rfl
      have hquotes : inQuotes b = [b] := if_neg hb
      exact ⟨before, hquotes ▸ h.append b⟩

theorem Place.loneReturns_append {t : Bytes} (ht : t.head? ≠ some 10) (p : Place) (s : Bytes) :
    p.loneReturns (s ++ t) = p.loneReturns s + (p.after s).loneReturns t := by
  induction s generalizing p with
  | nil => exact (Nat.zero_add _).symm
  | cons b s ih =>
    have hhead : (s ++ t).head? ≠ some 10 ↔ s.head? ≠ some 10 := by
      cases s with
      | nil => exact iff_of_true ht nofun
      | cons c s => rfl
    have hafter : p.after (b :: s) = (p.next b).after s := rfl
    simp only [List.cons_append, loneReturns, hhead, ih, hafter, Nat.add_assoc]

/-- A text that ends a line can be read on its own: what stands behind it is read as if it stood
alone, apart from the lines that come before. A quote that is never closed is found on the line on
which it stands. -/
theorem parse_composes :
    (∀ a records, parse a = .ok records → a.getLast? = some 10 → ∀ b,
      (∀ others, parse b = .ok others → parse (a ++ b) = .ok (records ++ others)) ∧
      ∀ line, parse b = .error line →
        parse (a ++ b) = .error (line + (a.count 10 + Place.start.loneReturns a))) ∧
    ∀ s line, parse s = .error line → ∃ before field : Bytes,
      s = before ++ 34 :: field.flatMap inQuotes ∧ (Place.start.after before).IsOpen ∧
        line = 1 + (before.count 10 + Place.start.loneReturns before) ∧
        (Place.start.loneReturns s = 0 → line = 1 + before.count 10) := by
  constructor
  · intro a records ha hend b
    rw [parse_eq] at ha
    cases hr : (feedAll .fresh a).result with
    | error line => rw [hr] at ha; cases ha
    | ok r =>
      rw [hr] at ha
      obtain rfl := Except.ok.inj ha
      obtain ⟨htrails, hfield⟩ := trails_of_ends hr hend
      have hb := (htrails.feedAll b).result
      rw [← feedAll_append] at hb
      rw [parse_eq, parse_eq, hb, hfield.finish]
      cases (feedAll .fresh b).result with
      | error line => exact ⟨nofun, fun _ h => by rw [← Except.error.inj h]; rfl⟩
      | ok r' =>
        refine ⟨fun _ h => ?_, nofun⟩
        rw [← Except.ok.inj h]
        exact congrArg Except.ok Reader.finish_behind
  · intro s line hs
    rw [parse_eq] at hs
    by_cases hinside : (feedAll .fresh s).place = .inside
    · rw [result, if_pos hinside] at hs
      obtain rfl := Except.error.inj hs
      obtain ⟨before, hplace, ⟨field, heq⟩, hline⟩ := (exists_leftOpen_feedAll s).1 hinside
      have hcount : (feedAll .fresh s).opened =
          1 + (before.count 10 + Place.start.loneReturns before) :=
        hline.trans (line_feedAll .fresh before)
      refine ⟨before, field, heq, hplace, hcount, fun hnone => ?_⟩
      rw [heq, Place.loneReturns_append (by simp)] at hnone
      rw [hcount, Nat.eq_zero_of_add_eq_zero_right hnone, Nat.add_zero]
    · rw [result, if_neg hinside] at hs
      cases hs

def threeLines : Bytes := utf8 "a,\"b\r\nc\"\rd,\"\"\r\n"

theorem parse_composes_threeLines :
    parse threeLines = .ok [[utf8 "a", utf8 "b\r\nc"], [utf8 "d", []]] ∧
      parse (utf8 "e\n\"f") = .error 2 ∧ parse (threeLines ++ utf8 "e\n\"f") = .error 5 ∧
      ∃ before field : Bytes, utf8 "e\n\"f" = before ++ 34 :: field.flatMap inQuotes ∧
        (Place.start.after before).IsOpen ∧ 2 = 1 + before.count 10 := by
  have hlines : parse threeLines = .ok [[utf8 "a", utf8 "b\r\nc"], [utf8 "d", []]] := rfl
  have hopen : parse (utf8 "e\n\"f") = .error 2 := rfl
  obtain ⟨before, field, heq, hplace, -, hline⟩ := parse_composes.2 _ 2 hopen
  exact ⟨hlines, hopen, (parse_composes.1 _ _ hlines rfl _).2 2 hopen,
    before, field, heq, hplace, hline (by decide)⟩

end LoadGenerator.Csv
