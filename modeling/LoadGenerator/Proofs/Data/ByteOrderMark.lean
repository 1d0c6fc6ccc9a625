import LoadGenerator.Proofs.Data.Lines
import LoadGenerator.Proofs.Data.Table
import LoadGenerator.Proofs.Text.Bytes

namespace LoadGenerator

namespace Csv

open Scanner

namespace Reader

/-- The readers have read the same, but for the first field of all, which is behind them. -/
inductive Twins (f g : Bytes) : Reader → Reader → Prop
  | record (record : Record) (field : Bytes) (quoted : Bool) (line : Nat) :
    Twins f g ⟨[], record ++ [f], field, quoted, line⟩ ⟨[], record ++ [g], field, quoted, line⟩
  | records (records : List Record) (first record : Record) (field : Bytes) (quoted : Bool)
    (line : Nat) : Twins f g ⟨records ++ [f :: first], record, field, quoted, line⟩
      ⟨records ++ [g :: first], record, field, quoted, line⟩

variable {f g : Bytes} {r r' : Reader}

theorem Twins.line (h : Twins f g r r') : r'.line = r.line := by
  cases h <;> rfl

theorem Twins.newLine (h : Twins f g r r') : Twins f g r.newLine r'.newLine := by
  cases h with
  | record => exact .record ..
  | records => exact .records ..

theorem Twins.push (h : Twins f g r r') (b : UInt8) : Twins f g (r.push b) (r'.push b) := by
  cases h with
  | record => exact .record ..
  | records => exact .records ..

theorem Twins.endField (h : Twins f g r r') : Twins f g r.endField r'.endField := by
  cases h with
  | record record field => exact .record (field.reverse :: record) ..
  | records => exact .records ..

theorem keep_of_cons (f field : Bytes) (record : Record) :
    keep (field :: (record ++ [f])).reverse [] = [f :: (record.reverse ++ [field])] := by
  simp [keep]

theorem Twins.endRecord (h : Twins f g r r') : Twins f g r.endRecord r'.endRecord := by
  cases h with
  | record record field quoted line =>
    simp only [Reader.endRecord, Reader.endField, keep_of_cons]
    exact .records [] ..
  | records =>
    simp only [Reader.endRecord, Reader.endField, keep_append]
    exact .records ..

theorem lockstep_twins (f g : Bytes) : Lockstep (Twins f g) 0 where
  line h := h.line
  inside h b := by
    unfold takeInside
    split
    · exact h
    · split
      · exact (h.push b).newLine
      · exact h.push b
  outside h p b := by
    unfold takeOutside
    split
    · split
      · exact h.push b
      · cases h with
        | record => exact .record ..
        | records => exact .records ..
    split
    · exact h.endField
    split
    · exact h
    split
    · exact h.endRecord.newLine
    · exact h.push b

theorem Twins.finish (h : Twins f g r r') : ∃ rest records,
    r.finish = (f :: rest) :: records ∧ r'.finish = (g :: rest) :: records := by
  cases h with
  | record record field quoted line =>
    refine ⟨record.reverse ++ [field.reverse], [], ?_, ?_⟩ <;>
      simp [Reader.finish, Reader.endRecord, Reader.endField, keep]
  | records records first record field quoted line =>
    by_cases hclosed : (field.isEmpty && !quoted && record.isEmpty) = true
    · refine ⟨first, records.reverse, ?_, ?_⟩ <;> simp only [Reader.finish, hclosed] <;> simp
    · refine ⟨first, (keep (field.reverse :: record).reverse records).reverse, ?_, ?_⟩ <;>
        simp only [Reader.finish, hclosed, Reader.endRecord, Reader.endField, keep_append] <;> simp

end Reader

/-- A byte that a field without quotes goes on with; a quote means nothing in it. -/
def isBare (b : UInt8) : Bool := b != 44 && b != 13 && b != 10

theorem isBare_iff {b : UInt8} : isBare b = true ↔ b ≠ 44 ∧ b ≠ 13 ∧ b ≠ 10 := by
  simp [isBare, and_assoc]

namespace Scanner

/-- Outside quotes, in the field that is the first of all. -/
structure OnFirst (f : Bytes) (x : Scanner) : Prop where
  reader : x.reader.Holds [] [] f
  place : x.place ≠ .inside ∧ x.place ≠ .returned

def records (x : Scanner) : Except Nat (List Record) := x.result.map Reader.finish

variable {x y : Scanner} {f g l w : Bytes} {b : UInt8}

theorem OnFirst.push (hx : OnFirst f x) (hb : isBare b) (hquote : b = 34 → x.place = .bare) :
    OnFirst (f ++ [b]) (x.feed b) ∧ (x.feed b).place = .bare ∧
      (x.feed b).reader.line = x.reader.line := by
  obtain ⟨⟨hrecords, hrecord, hfield⟩, hinside, hreturned⟩ := hx
  obtain ⟨r, p, opened⟩ := x
  have hfeed : Scanner.feed ⟨r, p, opened⟩ b = ⟨r.push b, .bare, opened⟩ := by
    by_cases h : b = 34
    · obtain rfl : p = .bare := hquote h
      subst h
      exact feed_bare
    · obtain ⟨hcomma, hcr, hlf⟩ := isBare_iff.mp hb
      exact feed_ordinary hinside ⟨h, hcomma, hcr, hlf⟩
  rw [hfeed]
  refine ⟨⟨⟨hrecords, hrecord, ?_⟩, nofun, nofun⟩, rfl, rfl⟩
  rw [← hfield]
  exact List.reverse_cons

theorem OnFirst.feedAll (hx : OnFirst f x) (hl : ∀ b ∈ l, isBare b)
    (hquote : l.head? = some 34 → x.place = .bare) :
    OnFirst (f ++ l) (x.feedAll l) ∧ (x.feedAll l).reader.line = x.reader.line := by
  induction l generalizing x f with
  | nil => exact ⟨(List.append_nil f).symm ▸ hx, rfl⟩
  | cons b l ih =>
    obtain ⟨hb, hl⟩ := List.forall_mem_cons.mp hl
    obtain ⟨hpush, hplace, hline⟩ := hx.push hb fun h => hquote (congrArg some h)
    obtain ⟨hall, hlines⟩ := ih hpush hl fun _ => hplace
    rw [List.append_assoc] at hall
    exact ⟨hall, hlines.trans hline⟩

theorem OnFirst.exists_reader (hx : OnFirst f x) : ∃ quoted,
    x = ⟨⟨[], [], f.reverse, quoted, x.reader.line⟩, x.place, x.opened⟩ := by
  obtain ⟨⟨hrecords, hrecord, hfield⟩, -⟩ := hx
  obtain ⟨⟨records, record, field, quoted, line⟩, p, opened⟩ := x
  obtain rfl : records = [] := hrecords
  obtain rfl : record = [] := hrecord
  obtain rfl : field.reverse = f := hfield
  exact ⟨quoted, by rw [List.reverse_reverse]⟩

theorem OnFirst.feed_comma (hx : OnFirst f x) :
    x.feed 44 = ⟨⟨[], [f], [], false, x.reader.line⟩, .start, x.opened⟩ := by
  obtain ⟨quoted, heq⟩ := hx.exists_reader
  rw [heq, Scanner.feed_comma hx.place.1]
  simp [Reader.endField]

theorem OnFirst.feed_end (hx : OnFirst f x) (hb : b = 13 ∨ b = 10) :
    x.feed b = ⟨⟨Reader.keep [f] [], [], [], false, x.reader.line + 1⟩,
      if b = 13 then .returned else .start, x.opened⟩ := by
  obtain ⟨quoted, heq⟩ := hx.exists_reader
  rw [heq]
  obtain rfl | rfl := hb
  · rw [feed_return hx.place.1]
    simp [Reader.endRecord, Reader.endField, Reader.newLine]
  · rw [feed_lineFeed hx.place.1 hx.place.2]
    simp [Reader.endRecord, Reader.endField, Reader.newLine]

theorem keep_of_ne (hf : f ≠ []) : Reader.keep [f] [] = [[f]] := by
  simp [Reader.keep, hf]

theorem OnFirst.twins (hx : OnFirst f x) (hy : OnFirst g y) (hline : y.reader.line = x.reader.line)
    (hb : ¬isBare b) (hne : b = 44 ∨ f ≠ [] ∧ g ≠ []) :
    Abreast (Reader.Twins f g) 0 (x.feed b) (y.feed b) := by
  have hend : b = 44 ∨ b = 13 ∨ b = 10 := by
    rw [isBare_iff] at hb
    grind
  obtain rfl | hend := hend
  · rw [hx.feed_comma, hy.feed_comma, hline]
    exact ⟨.record [] .., rfl, nofun⟩
  · have hnotComma : b ≠ 44 := by
      rintro rfl
      exact absurd hend (by decide)
    obtain ⟨hf, hg⟩ := hne.resolve_left hnotComma
    rw [hx.feed_end hend, hy.feed_end hend, hline, keep_of_ne hf, keep_of_ne hg]
    exact ⟨.records [] .., rfl, fun h => absurd h (by split <;> nofun)⟩

theorem OnFirst.records_eq (hx : OnFirst f x) : x.records = .ok (Reader.keep [f] []) := by
  obtain ⟨quoted, heq⟩ := hx.exists_reader
  rw [records, result, if_neg hx.place.1, Except.map, heq]
  by_cases hf : f = []
  · subst hf
    cases quoted <;> rfl
  · simp [Reader.finish, Reader.endRecord, Reader.endField, Reader.keep, hf]

theorem OnFirst.records_feedAll (hx : OnFirst f x) (hy : OnFirst g y)
    (hline : y.reader.line = x.reader.line) (hw : ∀ b ∈ w.head?, ¬isBare b)
    (hne : w.head? = some 44 ∨ f ≠ [] ∧ g ≠ []) :
    (∃ line, (x.feedAll w).records = .error line ∧ (y.feedAll w).records = .error line) ∨
      ∃ rest records, (x.feedAll w).records = .ok ((f :: rest) :: records) ∧
        (y.feedAll w).records = .ok ((g :: rest) :: records) := by
  cases w with
  | nil =>
    obtain ⟨hf, hg⟩ := hne.resolve_left nofun
    refine .inr ⟨[], [], ?_, ?_⟩
    · exact keep_of_ne hf ▸ hx.records_eq
    · exact keep_of_ne hg ▸ hy.records_eq
  | cons b w =>
    have hfeed := hx.twins hy hline (hw b rfl) (hne.imp_left Option.some.inj)
    rcases (hfeed.feedAll (Reader.lockstep_twins f g) w).result with
      ⟨line, hrx, hry⟩ | ⟨r, r', hrx, hry, htwins⟩
    · exact .inl ⟨line, congrArg _ hrx, congrArg _ hry⟩
    · obtain ⟨rest, records, hfinish, hfinish'⟩ := htwins.finish
      refine .inr ⟨rest, records, ?_, ?_⟩
      · rw [feedAll_cons, Scanner.records, hrx, Except.map, hfinish]
      · rw [feedAll_cons, Scanner.records, hry, Except.map, hfinish']

theorem OnFirst.trails (hx : OnFirst [] x) (hy : OnFirst g y)
    (hline : y.reader.line = x.reader.line) (hb : b = 13 ∨ b = 10) (hg : g ≠ []) : Trails [[g]] 0 (x.feed b) (y.feed b) := by
  rw [hx.feed_end hb, hy.feed_end hb, hline, keep_of_ne hg]
  exact ⟨rfl, rfl, fun h => absurd h (by split <;> nofun)⟩

end Scanner

/-- The text begins with a field that stands outside quotes, and not with a blank line. -/
def OpensBare (t : Bytes) : Prop := ∃ b ∈ t.head?, b ≠ 34 ∧ b ≠ 13 ∧ b ≠ 10

variable {p t l s : Bytes} {b : UInt8}

theorem isBare_of_ordinary (h : Ordinary b) : isBare b = true :=
  isBare_iff.mpr ⟨h.2.1, h.2.2.1, h.2.2.2⟩

theorem onFirst_fresh : OnFirst [] .fresh := ⟨⟨rfl, rfl, rfl⟩, nofun, nofun⟩

theorem onFirst_feedAll (hl : ∀ b ∈ l, isBare b) (hquote : l.head? ≠ some 34) :
    OnFirst l (feedAll .fresh l) ∧ (feedAll .fresh l).reader.line = 1 :=
  onFirst_fresh.feedAll hl fun h => absurd h hquote

theorem onFirst_append (hp : ∀ b ∈ p, Ordinary b) (hne : p ≠ []) (hl : ∀ b ∈ l, isBare b) :
    OnFirst (p ++ l) (feedAll .fresh (p ++ l)) ∧ (feedAll .fresh (p ++ l)).reader.line = 1 := by
  refine onFirst_feedAll (fun b hb => ?_) fun hquote => ?_
  · rcases List.mem_append.mp hb with hb | hb
    · exact isBare_of_ordinary (hp b hb)
    · exact hl b hb
  · rw [List.head?_append_of_ne_nil _ hne] at hquote
    exact (hp 34 (List.mem_of_head? hquote)).1 rfl

theorem not_isBare_head (t : Bytes) : ∀ b ∈ (t.dropWhile isBare).head?, ¬isBare b := by
  intro b hb
  have h := List.head?_dropWhile_not isBare t
  rw [hb] at h
  simpa using h

theorem bare_takeWhile (t : Bytes) : ∀ b ∈ t.takeWhile isBare, isBare b :=
  fun _ hb => List.mem_takeWhile_imp hb

theorem parse_eq_records (s : Bytes) : parse s = (feedAll .fresh s).records := parse_eq s

theorem records_append_dropWhile (p t : Bytes) :
    ((feedAll .fresh (p ++ t.takeWhile isBare)).feedAll (t.dropWhile isBare)).records =
      parse (p ++ t) := by
  rw [← feedAll_append, List.append_assoc, List.takeWhile_append_dropWhile, parse_eq_records]

theorem parse_append_of_opensBare (hp : ∀ b ∈ p, Ordinary b) (hne : p ≠ []) (ht : OpensBare t) :
    (∃ line, parse t = .error line ∧ parse (p ++ t) = .error line) ∨
      ∃ rest records, parse t = .ok ((t.takeWhile isBare :: rest) :: records) ∧
        parse (p ++ t) = .ok (((p ++ t.takeWhile isBare) :: rest) :: records) := by
  have hends := not_isBare_head t
  have hbare := bare_takeWhile t
  obtain ⟨b, hb, hquote, hreturn, hfeed⟩ := ht
  obtain ⟨s, rfl⟩ := List.head?_eq_some_iff.mp hb
  have hhead : ((b :: s).takeWhile isBare).head? ≠ some 34 := by
    rw [List.takeWhile_cons]
    split
    · simpa using hquote
    · nofun
  have hstart : ((b :: s).dropWhile isBare).head? = some 44 ∨
      (b :: s).takeWhile isBare ≠ [] ∧ p ++ (b :: s).takeWhile isBare ≠ [] := by
    by_cases hcomma : b = 44
    · subst hcomma
      exact .inl rfl
    · rw [List.takeWhile_cons_of_pos (isBare_iff.mpr ⟨hcomma, hreturn, hfeed⟩)]
      exact .inr ⟨List.cons_ne_nil _ _, List.append_ne_nil_of_left_ne_nil hne _⟩
  obtain ⟨hx, hxline⟩ := onFirst_feedAll hbare hhead
  obtain ⟨hy, hyline⟩ := onFirst_append hp hne hbare
  have hread := hx.records_feedAll hy (hyline.trans hxline.symm) hends hstart
  have hplain := records_append_dropWhile [] (b :: s)
  rw [List.nil_append, List.nil_append] at hplain
  rwa [hplain, records_append_dropWhile p] at hread

theorem parse_append (hp : ∀ b ∈ p, Ordinary b) (hne : p ≠ []) (t : Bytes) :
    (∃ line, parse (p ++ t) = .error line) ∨
      ∃ rest records, parse (p ++ t) = .ok (((p ++ t.takeWhile isBare) :: rest) :: records) := by
  obtain ⟨hy, -⟩ := onFirst_append hp hne (bare_takeWhile t)
  have hfield : p ++ t.takeWhile isBare ≠ [] := List.append_ne_nil_of_left_ne_nil hne _
  have hread := hy.records_feedAll hy rfl (not_isBare_head t) (.inr ⟨hfield, hfield⟩)
  rw [records_append_dropWhile p] at hread
  simpa using hread

theorem parse_append_of_blank (hp : ∀ b ∈ p, Ordinary b) (hne : p ≠ []) {e : Bytes}
    (he : OnFirst [] (feedAll .fresh e)) (hline : (feedAll .fresh e).reader.line = 1)
    (hbare : ∀ b ∈ e, isBare b) (hb : b = 13 ∨ b = 10) {records : List Record}
    (hread : parse (e ++ b :: s) = .ok records) :
    parse (p ++ (e ++ b :: s)) = .ok ([p ++ e] :: records) := by
  obtain ⟨hy, hyline⟩ := onFirst_append hp hne hbare
  have htrails := he.trails hy (hyline.trans hline.symm) hb
    (List.append_ne_nil_of_left_ne_nil hne e)
  have hresult := (htrails.feedAll s).result
  rw [← feedAll_cons, ← feedAll_cons, ← feedAll_append, ← feedAll_append, List.append_assoc]
    at hresult
  rw [parse_eq] at hread ⊢
  rw [hresult]
  cases hr : (feedAll .fresh (e ++ b :: s)).result with
  | error line => rw [hr] at hread; cases hread
  | ok r =>
    rw [hr] at hread
    obtain rfl := Except.ok.inj hread
    exact congrArg Except.ok Reader.finish_behind

theorem exists_closed_or_open (u : Bytes) :
    (∃ field rest : Bytes, u = field.flatMap inQuotes ++ 34 :: rest ∧ rest.head? ≠ some 34) ∨
      ∃ field : Bytes, u = field.flatMap inQuotes := by
  -- a quote in a field takes two bytes, so the induction is on the length
  induction hlength : u.length using Nat.strongRecOn generalizing u with
  | ind n ih =>
    subst hlength
    have hmore : ∀ b v, u = inQuotes b ++ v → v.length < u.length →
        (∃ field rest : Bytes, u = field.flatMap inQuotes ++ 34 :: rest ∧ rest.head? ≠ some 34) ∨
          ∃ field : Bytes, u = field.flatMap inQuotes := by
      rintro b v hu hlt
      rcases ih _ hlt v rfl with ⟨field, rest, hv, hrest⟩ | ⟨field, hv⟩
      · refine .inl ⟨b :: field, rest, ?_, hrest⟩
        rw [hu, hv, List.flatMap_cons, List.append_assoc]
      · exact .inr ⟨b :: field, by rw [hu, hv, List.flatMap_cons]⟩
    cases u with
    | nil => exact .inr ⟨[], rfl⟩
    | cons b v =>
      by_cases hb : b = 34
      · subst hb
        by_cases hv : v.head? = some 34
        · obtain ⟨w, rfl⟩ := List.head?_eq_some_iff.mp hv
          exact hmore 34 w rfl (by simp)
        · exact .inl ⟨[], v, rfl, hv⟩
      · exact hmore b v (by simp [inQuotes, hb]) (Nat.lt_succ_self _)

theorem parse_open (field : Bytes) : parse (34 :: field.flatMap inQuotes) = .error 1 := by
  obtain ⟨line, hread⟩ :=
    quoted_flatMap (r := { Reader.fresh with quoted := true }) field [] 1
  rw [List.append_nil] at hread
  rw [parse, plain_quote rfl rfl]
  refine (congrArg _ hread).trans ?_
  rw [quoted]
  rfl

theorem exists_onFirst_enquote (hl : ∀ b ∈ l, isBare b) (hhead : (l ++ s).head? ≠ some 34)
    (field : Bytes) :
    ∃ x, OnFirst (field ++ l) x ∧ parse (enquote field ++ (l ++ s)) = (x.feedAll s).records := by
  obtain ⟨line, hread⟩ := plain_enquote field Reader.atField_fresh hhead
  have hclosed : OnFirst field ⟨⟨[], [], field.reverse, true, line⟩, .closing, 1⟩ :=
    ⟨⟨rfl, rfl, List.reverse_reverse field⟩, nofun, nofun⟩
  have hquote : l.head? ≠ some 34 := by
    intro h
    rw [List.head?_append, h] at hhead
    exact hhead rfl
  refine ⟨_, (hclosed.feedAll hl fun h => absurd h hquote).1, ?_⟩
  rw [parse, hread, ← feedAll_append]
  exact congrArg _ (plain_eq_and_quoted_eq.1 _ _ _ 1 (outside_closing rfl)
    (Place.parts_closing hhead))

theorem length_lt_enquote (field l : Bytes) :
    (field ++ l).length < (enquote field ++ l).length := by
  have hfield : field.length ≤ (field.flatMap inQuotes).length := by
    induction field with
    | nil => exact Nat.le_refl 0
    | cons b field ih =>
      have hb : 1 ≤ (inQuotes b).length := by unfold inQuotes; split <;> simp
      rw [List.flatMap_cons, List.length_append, List.length_cons]
      omega
  simp only [enquote, List.length_append, List.length_cons, List.length_nil]
  omega

theorem bare_enquote {field : Bytes} (h : ∀ b ∈ field, isBare b) :
    ∀ b ∈ enquote field, isBare b := by
  have hquote : isBare 34 = true := rfl
  intro b hb
  simp only [enquote, inQuotes, List.mem_cons, List.mem_append, List.mem_flatMap] at hb
  obtain rfl | ⟨c, hc, hb⟩ | rfl | hb := hb
  · exact hquote
  · split at hb
    · simp_all
    · rw [List.mem_singleton.mp hb]
      exact h c hc
  · exact hquote
  · cases hb

end Csv

namespace Table

open Csv Csv.Scanner

variable {t g l w : Bytes} {first : Record} {records : List Record} {table : Table}

theorem ordinary_byteOrderMark : ∀ b ∈ byteOrderMark, Ordinary b := by
  unfold Ordinary
  decide +kernel

theorem headerName_append (h : Bytes) : headerName (byteOrderMark ++ h) = h := by
  simp [headerName, byteOrderMark, List.isPrefixOf?]

theorem headerName_cases (h : Bytes) :
    headerName h = h ∨ h = byteOrderMark ++ headerName h := by
  unfold headerName
  cases hp : List.isPrefixOf? byteOrderMark h with
  | none => exact .inl rfl
  | some rest => exact .inr (List.append_eq_of_isPrefixOf?_eq_some hp).symm

theorem of_ofRecords (h : ofRecords (first :: records) = .ok table) :
    table.headers = first.map headerName ∧ table.rows.length = records.length := by
  rw [ofRecords] at h
  split at h
  · cases h
  · obtain rfl := Except.ok.inj h
    exact ⟨rfl, List.length_map _⟩

theorem exists_ofRecords (h : parse t = .ok table) :
    ∃ first records, Csv.parse t = .ok (first :: records) ∧
      ofRecords (first :: records) = .ok table := by
  unfold parse at h
  split at h
  · cases h
  · next records hread =>
    cases records with
    | nil => cases h
    | cons first records => exact ⟨first, records, hread, h⟩

theorem headerName_ne (hl : ∀ b ∈ l, isBare b) (hw : ∀ b ∈ w.head?, ¬isBare b) :
    headerName (g ++ l) ≠ (enquote g ++ (l ++ w)).takeWhile isBare := by
  intro heq
  by_cases hg : ∀ b ∈ g, isBare b
  · have hbare : ∀ b ∈ enquote g ++ l, isBare b := fun b hb =>
      (List.mem_append.mp hb).elim (bare_enquote hg b) (hl b)
    have hends : ∀ b ∈ w.head?, isBare b = false := fun b hb => by simpa using hw b hb
    rw [← List.append_assoc, (Bytes.span_append hbare hends).1] at heq
    have hlt := length_lt_enquote g l
    have hle : (headerName (g ++ l)).length ≤ (g ++ l).length := by
      rcases headerName_cases (g ++ l) with h | h
      · rw [h]
      · rw [h, List.length_append, headerName_append]
        exact Nat.le_add_left _ _
    rw [heq] at hle
    exact absurd hlt (Nat.not_lt.mpr hle)
  · simp only [Classical.not_forall] at hg
    obtain ⟨b, hb, hstops⟩ := hg
    have hmem : b ∈ headerName (g ++ l) := by
      have hall : b ∈ g ++ l := List.mem_append_left l hb
      rcases headerName_cases (g ++ l) with h | h
      · rwa [h]
      · rw [h] at hall
        refine (List.mem_append.mp hall).resolve_left fun hmark => hstops ?_
        exact isBare_of_ordinary (ordinary_byteOrderMark b hmark)
    rw [heq] at hmem
    exact hstops (bare_takeWhile _ b hmem)

theorem headers_marked (h : parse (byteOrderMark ++ t) = .ok table) :
    table.headers.head? = some (t.takeWhile isBare) := by
  obtain ⟨first, records, hread, hrecords⟩ := exists_ofRecords h
  rcases Csv.parse_append ordinary_byteOrderMark (by decide) t with
    ⟨line, herror⟩ | ⟨rest, more, hok⟩
  · rw [herror] at hread
    cases hread
  · obtain ⟨rfl, -⟩ := List.cons.inj (Except.ok.inj (hok.symm.trans hread))
    rw [(of_ofRecords hrecords).1, List.map_cons, headerName_append]
    rfl

theorem parse_append_of_opensBare (hmark : ¬byteOrderMark <+: t) (h : OpensBare t) :
    parse (byteOrderMark ++ t) = parse t := by
  rcases Csv.parse_append_of_opensBare ordinary_byteOrderMark (by decide) h with
    ⟨line, hplain, hmarked⟩ | ⟨rest, records, hplain, hmarked⟩
  · rw [parse, parse, hplain, hmarked]
  · have hfirst : headerName (t.takeWhile isBare) = t.takeWhile isBare :=
      headerName_eq fun hpre => hmark (hpre.trans (List.takeWhile_prefix _))
    rw [parse, parse, hplain, hmarked]
    dsimp only
    rw [ofRecords, ofRecords, List.map_cons, List.map_cons, headerName_append, hfirst]

theorem not_blank_of_parse {e : Bytes} {b : UInt8} {s : Bytes} (he : OnFirst [] (feedAll .fresh e))
    (hline : (feedAll .fresh e).reader.line = 1) (hbare : ∀ b ∈ e, isBare b)
    (h : parse (e ++ b :: s) = .ok table)
    (hmarked : parse (byteOrderMark ++ (e ++ b :: s)) = .ok table) : ¬(b = 13 ∨ b = 10) := by
  intro hb
  obtain ⟨first, records, hread, hrecords⟩ := exists_ofRecords h
  obtain ⟨first', records', hread', hrecords'⟩ := exists_ofRecords hmarked
  have hbehind := parse_append_of_blank ordinary_byteOrderMark (by decide) he hline hbare hb hread
  obtain ⟨-, rfl⟩ := List.cons.inj (Except.ok.inj (hbehind.symm.trans hread'))
  have hlength := (of_ofRecords hrecords).2
  rw [(of_ofRecords hrecords').2] at hlength
  simp at hlength

theorem headers_quoted (hl : ∀ b ∈ l, isBare b) (hw : ∀ b ∈ w.head?, ¬isBare b)
    (hhead : (l ++ w).head? ≠ some 34) (hfirst : w.head? = some 44 ∨ g ++ l ≠ [])
    (h : parse (enquote g ++ (l ++ w)) = .ok table) :
    table.headers.head? = some (headerName (g ++ l)) := by
  obtain ⟨first, records, hread, hrecords⟩ := exists_ofRecords h
  obtain ⟨x, hx, hopened⟩ := exists_onFirst_enquote hl hhead g
  rcases hx.records_feedAll hx rfl hw (hfirst.imp_right fun hne => ⟨hne, hne⟩) with
    ⟨line, herror, -⟩ | ⟨rest, more, hok, -⟩
  · rw [hopened, herror] at hread
    cases hread
  · rw [hopened, hok] at hread
    obtain ⟨rfl, -⟩ := List.cons.inj (Except.ok.inj hread)
    rw [(of_ofRecords hrecords).1]
    rfl

theorem not_two_quotes_of_parse (hw : ∀ b ∈ w.head?, ¬isBare b) (hcomma : w.head? ≠ some 44)
    (h : parse (34 :: 34 :: w) = .ok table) :
    parse (byteOrderMark ++ 34 :: 34 :: w) ≠ .ok table := by
  have hblank : OnFirst [] (feedAll .fresh [34, 34]) := ⟨⟨rfl, rfl, rfl⟩, nofun, nofun⟩
  cases w with
  | nil =>
    obtain ⟨first, records, hread, -⟩ := exists_ofRecords h
    rw [parse_eq_records, hblank.records_eq] at hread
    cases hread
  | cons b s =>
    intro hmarked
    have hb : b ≠ 44 := fun h => hcomma (congrArg some h)
    refine not_blank_of_parse (e := [34, 34]) hblank rfl (by simp [isBare]) h hmarked ?_
    have hstops := hw b rfl
    rw [isBare_iff] at hstops
    grind

theorem not_quoted_of_parse {u : Bytes} (h : parse (34 :: u) = .ok table) :
    parse (byteOrderMark ++ 34 :: u) ≠ .ok table := by
  rcases exists_closed_or_open u with ⟨field, rest, rfl, hrest⟩ | ⟨field, rfl⟩
  · have hsplit : rest.takeWhile isBare ++ rest.dropWhile isBare = rest :=
      List.takeWhile_append_dropWhile
    have htext : 34 :: (field.flatMap inQuotes ++ 34 :: rest) =
        enquote field ++ (rest.takeWhile isBare ++ rest.dropWhile isBare) := by
      rw [hsplit]
      simp [enquote]
    have hl := bare_takeWhile rest
    have hends := not_isBare_head rest
    by_cases hfirst : (rest.dropWhile isBare).head? = some 44 ∨ field ++ rest.takeWhile isBare ≠ []
    · intro hmarked
      rw [htext] at h hmarked
      have hheader := headers_quoted hl hends (by rwa [hsplit]) hfirst h
      rw [headers_marked hmarked] at hheader
      exact headerName_ne hl hends (Option.some.inj hheader).symm
    · obtain ⟨hcomma, hempty⟩ := not_or.mp hfirst
      obtain ⟨rfl, hnone⟩ := List.append_eq_nil_iff.mp (Classical.not_not.mp hempty)
      rw [hnone, List.nil_append] at hsplit
      rw [hsplit] at hends hcomma
      exact not_two_quotes_of_parse hends hcomma h
  · obtain ⟨first, records, hread, -⟩ := exists_ofRecords h
    rw [parse_open] at hread
    cases hread

theorem opensBare_of_parse (h : parse t = .ok table)
    (hmarked : parse (byteOrderMark ++ t) = .ok table) : OpensBare t := by
  cases t with
  | nil => cases h
  | cons b s =>
    have hend : ¬(b = 13 ∨ b = 10) :=
      not_blank_of_parse (e := []) onFirst_fresh rfl (by simp) h hmarked
    have hquote : b ≠ 34 := by
      rintro rfl
      exact not_quoted_of_parse h hmarked
    exact ⟨b, rfl, hquote, fun h => hend (.inl h), fun h => hend (.inr h)⟩

/-- A mark in front of a text is not noticed where the text begins with a bare field. Where it does
not, which is where it begins with a quote or a blank line or is empty, there is no table that is
read both with the mark and without. -/
theorem parse_mark (hmark : ¬byteOrderMark <+: t) :
    (OpensBare t → parse (byteOrderMark ++ t) = parse t) ∧
      ∀ table, parse t = .ok table → parse (byteOrderMark ++ t) = .ok table → OpensBare t :=
  ⟨parse_append_of_opensBare hmark, fun _ => opensBare_of_parse⟩

def noted : Bytes := utf8 "user,\"the\nnote\"\n\"a\",b\n"

theorem parse_mark_noted : ¬byteOrderMark <+: noted ∧ OpensBare noted ∧
    ∃ table, parse (byteOrderMark ++ noted) = .ok table ∧
      table.headers = [utf8 "user", utf8 "the\nnote"] ∧
      table.rows = [[(utf8 "the\nnote", utf8 "b"), (utf8 "user", utf8 "a")]] := by
  have hmark : ¬byteOrderMark <+: noted := by decide +kernel
  have hopens : OpensBare noted := ⟨117, rfl, by decide +kernel⟩
  have hread : ∃ h, parse noted = .ok ⟨[utf8 "user", utf8 "the\nnote"],
      [[(utf8 "the\nnote", utf8 "b"), (utf8 "user", utf8 "a")]], h⟩ := ⟨by simp, rfl⟩
  obtain ⟨hrows, hread⟩ := hread
  exact ⟨hmark, hopens, _, ((parse_mark hmark).1 hopens).trans hread, rfl, rfl⟩

/-- Quotes around the only header; behind a mark they are read as part of it. -/
theorem exists_quotes_kept :
    let t := utf8 "\"user\"\nalice\n"
    ¬byteOrderMark <+: t ∧ (∃ table, parse t = .ok table ∧ table.headers = [utf8 "user"]) ∧
      ∃ table, parse (byteOrderMark ++ t) = .ok table ∧ table.headers = [utf8 "\"user\""] := by
  intro t
  have hrow : ∀ header : Bytes, [[(header, utf8 "alice")]] ≠ [] := by simp
  exact ⟨by decide +kernel, ⟨⟨[utf8 "user"], _, hrow (utf8 "user")⟩, rfl, rfl⟩,
    ⟨[utf8 "\"user\""], _, hrow (utf8 "\"user\"")⟩, rfl, rfl⟩

end Table

end LoadGenerator
