import LoadGenerator.Data.Csv

namespace LoadGenerator.Csv

def inQuotes (b : UInt8) : Bytes := if b = 34 then [34, 34] else [b]

def enquote (field : Bytes) : Bytes := 34 :: (field.flatMap inQuotes ++ [34])

/-- Neither a quote nor a comma nor a byte that ends a line. -/
def Ordinary (b : UInt8) : Prop := b ≠ 34 ∧ b ≠ 44 ∧ b ≠ 13 ∧ b ≠ 10

inductive WritesField (field : Bytes) : Bytes → Prop
  | bare (h : ∀ b ∈ field, Ordinary b) : WritesField field field
  | quoted : WritesField field (enquote field)

inductive WritesRecord : Record → Bytes → Prop
  | last {field t : Bytes} (h : WritesField field t) : WritesRecord [field] t
  | cons {field t s : Bytes} {record : Record} (h : WritesField field t)
    (hs : WritesRecord record s) : WritesRecord (field :: record) (t ++ 44 :: s)

inductive EndsLine : Bytes → Prop
  | lf : EndsLine [10]
  | crlf : EndsLine [13, 10]

/-- The texts of a list of records. Lines with nothing in them may stand anywhere between the
records, and the end of the last line may be missing. -/
inductive Writes : List Record → Bytes → Prop
  | nothing : Writes [] []
  | blank {e s : Bytes} {records : List Record} (he : EndsLine e) (hs : Writes records s) :
    Writes records (e ++ s)
  | unended {t : Bytes} {record : Record} (h : WritesRecord record t) : Writes [record] t
  | ended {t e s : Bytes} {record : Record} {records : List Record} (h : WritesRecord record t)
    (he : EndsLine e) (hs : Writes records s) : Writes (record :: records) (t ++ (e ++ s))

variable {records : List Record} {record : Record} {field s t e : Bytes}

theorem exists_writesRecord (h : record ≠ []) : ∃ t, WritesRecord record t := by
  induction record with
  | nil => exact absurd rfl h
  | cons f record ih =>
    by_cases hr : record = []
    · subst hr
      exact ⟨_, .last .quoted⟩
    · obtain ⟨t, ht⟩ := ih hr
      exact ⟨_, .cons .quoted ht⟩

theorem exists_writes (h : ∀ r ∈ records, r ≠ []) : ∃ s, Writes records s := by
  induction records with
  | nil => exact ⟨[], .nothing⟩
  | cons r records ih =>
    obtain ⟨hr, h⟩ := List.forall_mem_cons.mp h
    obtain ⟨t, ht⟩ := exists_writesRecord hr
    obtain ⟨s, hs⟩ := ih h
    exact ⟨_, .ended ht .lf hs⟩

variable {r : Reader}

theorem plain_comma : plain r (44 :: s) = plain r.endField s := by
  rw [plain] <;> simp

theorem plain_endsLine (h : EndsLine e) : plain r (e ++ s) = plain r.endRecord.newLine s := by
  cases h with
  | lf =>
    rw [List.cons_append, plain] <;> simp
  | crlf =>
    rw [List.cons_append, List.cons_append, plain]
    rfl

theorem plain_ordinary {b : UInt8} (h : Ordinary b) : plain r (b :: s) = plain (r.push b) s := by
  obtain ⟨hquote, hcomma, hcr, hlf⟩ := h
  rw [plain] <;> simp [hquote, hcomma, hcr, hlf]

theorem plain_quote (hf : r.field = []) (hq : r.quoted = false) :
    plain r (34 :: s) = quoted { r with quoted := true } r.line s := by
  rw [plain] <;> simp [hf, hq]

theorem quoted_inQuotes (opened : Nat) (b : UInt8) :
    ∃ line, quoted r opened (inQuotes b ++ s) = quoted { r.push b with line } opened s := by
  unfold inQuotes
  split
  · next h =>
    subst h
    exact ⟨r.line, by rw [List.cons_append, List.cons_append, quoted]; rfl⟩
  · next h =>
    rw [List.cons_append, quoted] <;> simp only [h, if_false, false_implies, implies_true]
    split
    · exact ⟨r.line + 1, rfl⟩
    · exact ⟨r.line, rfl⟩

theorem quoted_close (opened : Nat) (hs : s.head? ≠ some 34) :
    quoted r opened (34 :: s) = plain r s := by
  rw [quoted]
  · simp
  · rintro t - rfl
    exact hs rfl

namespace Reader

structure AtField (r : Reader) (records : List Record) (left : Record) : Prop where
  records : r.records = records
  record : r.record = left
  field : r.field = []
  quoted : r.quoted = false

structure Holds (r : Reader) (records : List Record) (left : Record) (field : Bytes) : Prop where
  records : r.records = records
  record : r.record = left
  field : r.field.reverse = field

variable {left : Record}

theorem atField_fresh : fresh.AtField [] [] := ⟨rfl, rfl, rfl, rfl⟩

theorem Holds.endField (h : r.Holds records left field) :
    r.endField.AtField records (field :: left) := by
  refine ⟨h.records, ?_, rfl, rfl⟩
  rw [← h.field, ← h.record]
  rfl

theorem Holds.endLine (h : r.Holds records left field) :
    r.endRecord.newLine.AtField (keep (field :: left).reverse records) [] := by
  refine ⟨?_, rfl, rfl, rfl⟩
  rw [← h.endField.record, ← h.records]
  rfl

theorem AtField.endLine (h : r.AtField records []) : r.endRecord.newLine.AtField records [] := by
  have hr : r.Holds records [] [] := ⟨h.records, h.record, by rw [h.field]; rfl⟩
  exact hr.endLine

theorem AtField.finish (h : r.AtField records []) : r.finish = records.reverse := by
  rw [Reader.finish, h.field, h.quoted, h.record, ← h.records]
  rfl

theorem Holds.finish (h : r.Holds records left field) (hne : (field :: left).reverse ≠ [[]]) :
    r.finish = ((field :: left).reverse :: records).reverse := by
  have hopen : (r.field.isEmpty && !r.quoted && r.record.isEmpty) = false := by
    refine Bool.eq_false_iff.mpr fun hclosed => hne ?_
    simp only [Bool.and_eq_true, List.isEmpty_iff] at hclosed
    obtain ⟨⟨hf, -⟩, hr⟩ := hclosed
    rw [← h.field, ← h.record, hf, hr]
    rfl
  have hend := h.endLine.records
  rw [keep, if_neg hne] at hend
  rw [Reader.finish, hopen, ← hend]
  rfl

end Reader

open Reader

variable {left : Record}

theorem plain_bare (h : ∀ b ∈ field, Ordinary b) :
    plain r (field ++ s) = plain { r with field := field.reverse ++ r.field } s := by
  induction field generalizing r with
  | nil => rfl
  | cons b field ih =>
    obtain ⟨hb, h⟩ := List.forall_mem_cons.mp h
    rw [List.cons_append, plain_ordinary hb, ih h, push, List.reverse_cons, List.append_assoc]
    rfl

theorem quoted_flatMap (field s : Bytes) (opened : Nat) :
    ∃ line, quoted r opened (field.flatMap inQuotes ++ s) =
      quoted { r with field := field.reverse ++ r.field, line } opened s := by
  induction field generalizing r with
  | nil => exact ⟨r.line, rfl⟩
  | cons b field ih =>
    obtain ⟨line, hb⟩ := quoted_inQuotes (r := r) (s := field.flatMap inQuotes ++ s) opened b
    obtain ⟨line', hf⟩ := ih (r := { r.push b with line })
    refine ⟨line', ?_⟩
    rw [List.flatMap_cons, List.append_assoc, hb, hf, push, List.reverse_cons, List.append_assoc]
    rfl

theorem plain_enquote (field : Bytes) (hr : r.AtField records left) (hs : s.head? ≠ some 34) :
    ∃ line, plain r (enquote field ++ s) =
      plain { r with field := field.reverse, quoted := true, line } s := by
  obtain ⟨line, hf⟩ := quoted_flatMap (r := { r with quoted := true }) field (34 :: s) r.line
  refine ⟨line, ?_⟩
  rw [enquote, List.cons_append, List.append_assoc, plain_quote hr.field hr.quoted]
  refine hf.trans ((quoted_close _ hs).trans ?_)
  rw [hr.field, List.append_nil]

theorem plain_field (hr : r.AtField records left) (h : WritesField field t)
    (hs : s.head? ≠ some 34) :
    ∃ r', plain r (t ++ s) = plain r' s ∧ r'.Holds records left field := by
  cases h with
  | bare h => exact ⟨_, plain_bare h, hr.records, hr.record, by simp [hr.field]⟩
  | quoted =>
    obtain ⟨line, hread⟩ := plain_enquote field hr hs
    exact ⟨_, hread, hr.records, hr.record, List.reverse_reverse field⟩

theorem plain_record (hr : r.AtField records left) (h : WritesRecord record t)
    (hs : s.head? ≠ some 34) :
    ∃ r' left' field, plain r (t ++ s) = plain r' s ∧ r'.Holds records left' field ∧
      (field :: left').reverse = left.reverse ++ record := by
  induction h generalizing r left with
  | last h =>
    obtain ⟨r', hread, hr'⟩ := plain_field hr h hs
    exact ⟨r', left, _, hread, hr', List.reverse_cons⟩
  | @cons field t u record h hrest ih =>
    obtain ⟨r', hread, hr'⟩ := plain_field (s := 44 :: (u ++ s)) hr h (by simp)
    obtain ⟨r'', left', last, hread', hr'', hall⟩ := ih hr'.endField
    refine ⟨r'', left', last, ?_, hr'', ?_⟩
    · rw [List.append_assoc, List.cons_append, hread, plain_comma, hread']
    · rw [hall, List.reverse_cons, List.append_assoc, List.singleton_append]

theorem plain_writes (h : Writes records s) (hne : ∀ record ∈ records, record ≠ [[]])
    {before : List Record} (hr : r.AtField before []) :
    (plain r s).map finish = .ok (before.reverse ++ records) := by
  induction h generalizing r before with
  | nothing => rw [plain, Except.map, hr.finish, List.append_nil]
  | blank he hs ih =>
    rw [plain_endsLine he]
    exact ih hne hr.endLine
  | @unended t record h =>
    obtain ⟨r', left, field, hread, hr', hall⟩ := plain_record (s := []) hr h (by simp)
    rw [List.reverse_nil, List.nil_append] at hall
    have hrecord := hne record List.mem_cons_self
    rw [← hall] at hrecord
    rw [← List.append_nil t, hread, plain, Except.map, hr'.finish hrecord, hall, List.reverse_cons]
  | @ended t e s record records h he hs ih =>
    obtain ⟨hrecord, hne⟩ := List.forall_mem_cons.mp hne
    obtain ⟨r', left, field, hread, hr', hall⟩ :=
      plain_record (s := e ++ s) hr h (by cases he <;> simp)
    rw [List.reverse_nil, List.nil_append] at hall
    have hnext := hr'.endLine
    rw [hall, keep, if_neg hrecord] at hnext
    rw [hread, plain_endsLine he, ih hne hnext, List.reverse_cons, List.append_assoc]
    rfl

/-- Whatever way a list of records is written in, it is read back. The one record that cannot be
told from an empty line is that of one empty field. -/
theorem parse_writes (h : ∀ record ∈ records, record ≠ [] ∧ record ≠ [[]]) :
    (∃ s, Writes records s) ∧ ∀ s, Writes records s → parse s = .ok records :=
  ⟨exists_writes fun record hr => (h record hr).1, fun _ hs =>
    plain_writes hs (fun record hr => (h record hr).2) atField_fresh⟩

def mixed : List Record := [[utf8 "a", []], [utf8 "say \"hi\"", utf8 "x,\ny"]]

theorem parse_writes_mixed : (∀ record ∈ mixed, record ≠ [] ∧ record ≠ [[]]) ∧
    parse (utf8 "\r\na,\r\n\n\"say \"\"hi\"\"\",\"x,\ny\"") = .ok mixed := by
  have hne : ∀ record ∈ mixed, record ≠ [] ∧ record ≠ [[]] := by decide
  have htext : utf8 "\r\na,\r\n\n\"say \"\"hi\"\"\",\"x,\ny\"" =
      [13, 10] ++ ((utf8 "a" ++ 44 :: []) ++
        ([13, 10] ++ ([10] ++ (enquote (utf8 "say \"hi\"") ++ 44 :: enquote (utf8 "x,\ny"))))) := by
    decide
  rw [htext]
  refine ⟨hne, (parse_writes hne).2 _ ?_⟩
  have hplain : WritesRecord [utf8 "a", []] (utf8 "a" ++ 44 :: []) :=
    .cons (.bare (by unfold Ordinary; decide +kernel)) (.last (.bare nofun))
  exact .blank .crlf (.ended hplain .crlf (.blank .lf (.unended (.cons .quoted (.last .quoted)))))

end LoadGenerator.Csv
