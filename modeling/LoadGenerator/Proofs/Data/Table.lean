import LoadGenerator.Data.Table
import LoadGenerator.Proofs.Data.Csv
import LoadGenerator.Proofs.Data.SortedMap

namespace LoadGenerator

namespace Csv

def quotedRecord (record : Record) : Bytes := [44].intercalate (record.map enquote)

/-- Records with all their fields in quotes, each on a line of its own. -/
def quotedText (records : List Record) : Bytes := records.flatMap fun r => quotedRecord r ++ [10]

theorem writesRecord_quotedRecord {record : Record} (h : record ≠ []) :
    WritesRecord record (quotedRecord record) := by
  induction record with
  | nil => exact absurd rfl h
  | cons field record ih =>
    cases record with
    | nil =>
      have hone : quotedRecord [field] = enquote field := by simp [quotedRecord]
      exact hone ▸ .last .quoted
    | cons next record =>
      have hcons : quotedRecord (field :: next :: record) =
          enquote field ++ 44 :: quotedRecord (next :: record) := by
        simp [quotedRecord, List.intercalate]
      exact hcons ▸ .cons .quoted (ih (by simp))

theorem plain_quotedText {records : List Record} (h : ∀ record ∈ records, record ≠ [])
    {r : Reader} {before : List Record} (hr : r.AtField before []) :
    (plain r (quotedText records)).map Reader.finish =
      .ok (before.reverse ++ records.filter (· ≠ [[]])) := by
  induction records generalizing r before with
  | nil => rw [quotedText, List.flatMap_nil, plain, Except.map, hr.finish, List.filter_nil,
      List.append_nil]
  | cons record records ih =>
    obtain ⟨hrecord, h⟩ := List.forall_mem_cons.mp h
    obtain ⟨r', left, field, hread, hr', hall⟩ :=
      plain_record (s := [10] ++ quotedText records) hr (writesRecord_quotedRecord hrecord)
        (by simp)
    have hnext := hr'.endLine
    rw [hall, List.reverse_nil, List.nil_append, Reader.keep] at hnext
    rw [quotedText, List.flatMap_cons, List.append_assoc, ← quotedText, hread, plain_endsLine .lf,
      ih h hnext]
    by_cases hblank : record = [[]]
    · rw [if_pos hblank, List.filter_cons_of_neg (by simpa using hblank)]
    · rw [if_neg hblank, List.filter_cons_of_pos (by simpa using hblank), List.reverse_cons,
        List.append_assoc, List.singleton_append]

theorem parse_quotedText {records : List Record} (h : ∀ record ∈ records, record ≠ []) :
    parse (quotedText records) = .ok (records.filter (· ≠ [[]])) :=
  plain_quotedText h Reader.atField_fresh

end Csv

namespace Row

theorem get?_foldl (fields : List (Bytes × Bytes)) (row : Row) (name : Bytes) :
    (fields.foldl (fun row (name, v) => if row.contains name then row else row.insert name v)
      row).get? name = (row.get? name).or (List.lookup name fields) := by
  induction fields generalizing row with
  | nil => simp
  | cons field fields ih =>
    obtain ⟨key, v⟩ := field
    rw [List.foldl_cons, ih, List.lookup_cons]
    by_cases hname : name = key
    · subst hname
      cases hget : row.get? name with
      | none => simp [SortedMap.contains, hget, SortedMap.get?_insert]
      | some w => simp [SortedMap.contains, hget]
    · rw [beq_false_of_ne hname]
      by_cases hkey : row.contains key = true
      · simp only [hkey, if_true]
      · simp only [hkey, Bool.false_eq_true, if_false, SortedMap.get?_insert, hname]

theorem get?_ofRecord (headers : List Bytes) (record : Csv.Record) (name : Bytes) :
    (ofRecord headers record).get? name = List.lookup name (headers.zip record) :=
  get?_foldl (headers.zip record) [] name

theorem get?_ofRecord_getElem {headers : List Bytes} (h : headers.Nodup) {record : Csv.Record}
    (i : Nat) (hi : i < headers.length) :
    (ofRecord headers record).get? headers[i] = record[i]? := by
  rw [get?_ofRecord]
  induction headers generalizing record i with
  | nil => cases hi
  | cons header headers ih =>
    obtain ⟨hnot, h⟩ := List.nodup_cons.mp h
    cases record with
    | nil => rfl
    | cons field record =>
      rw [List.zip_cons_cons, List.lookup_cons]
      cases i with
      | zero => simp
      | succ i =>
        have hi : i < headers.length := Nat.lt_of_succ_lt_succ hi
        have hne : headers[i] ≠ header := fun heq => hnot (heq ▸ List.getElem_mem hi)
        rw [List.getElem_cons_succ, beq_false_of_ne hne, List.getElem?_cons_succ]
        exact ih h i hi

end Row

namespace Table

/-- Headers and rows that make up a table: the headers differ from each other, and none of them is
empty or begins with a byte-order mark. -/
structure Writable (headers : List Bytes) (rows : List Csv.Record) : Prop where
  columns : headers ≠ []
  distinct : headers.Nodup
  named : ∀ h ∈ headers, h ≠ [] ∧ ¬byteOrderMark <+: h
  nonempty : rows ≠ []
  width : ∀ row ∈ rows, row.length = headers.length

/-- The table has these headers and these rows, each value under the header of its column. -/
structure Keeps (headers : List Bytes) (rows : List Csv.Record) (t : Table) : Prop where
  columns : t.headers = headers
  length : t.rows.length = rows.length
  value : ∀ (i : Nat) (row : Csv.Record), rows[i]? = some row →
    ∃ dealt, t.rows[i]? = some dealt ∧
      (∀ (j : Nat) (hj : j < headers.length), dealt.get? headers[j] = row[j]?) ∧
      ∀ name, name ∉ headers → dealt.get? name = none

variable {headers : List Bytes} {rows : List Csv.Record}

theorem headerName_eq {h : Bytes} (hmark : ¬byteOrderMark <+: h) : headerName h = h := by
  have hnone : List.isPrefixOf? byteOrderMark h = none := by
    cases hp : List.isPrefixOf? byteOrderMark h with
    | none => rfl
    | some rest =>
      exact absurd ⟨rest, List.append_eq_of_isPrefixOf?_eq_some hp⟩ hmark
  rw [headerName, hnone]
  rfl

namespace Writable

theorem row_ne_nil (h : Writable headers rows) : ∀ row ∈ rows, row ≠ [] := by
  rintro row hrow rfl
  have hwidth := h.width [] hrow
  exact h.columns (List.length_eq_zero_iff.mp hwidth.symm)

theorem headers_ne (h : Writable headers rows) : headers ≠ [[]] := by
  rintro rfl
  exact (h.named [] (by simp)).1 rfl

theorem map_headerName (h : Writable headers rows) : headers.map headerName = headers := by
  conv => rhs; rw [← List.map_id headers]
  exact List.map_congr_left fun name hname => headerName_eq (h.named name hname).2

end Writable

theorem parse_quotedText (h : Writable headers rows) :
    parse (Csv.quotedText (headers :: rows)) =
      ofRecords (headers :: rows.filter (· ≠ [[]])) := by
  have hne : ∀ record ∈ headers :: rows, record ≠ [] :=
    List.forall_mem_cons.mpr ⟨h.columns, h.row_ne_nil⟩
  rw [parse, Csv.parse_quotedText hne, List.filter_cons_of_pos (by simpa using h.headers_ne)]

theorem keeps_ofRecord (h : headers.Nodup) (hrows : rows.map (Row.ofRecord headers) ≠ []) :
    Keeps headers rows ⟨headers, rows.map (Row.ofRecord headers), hrows⟩ where
  columns := rfl
  length := List.length_map _
  value i row hrow := by
    refine ⟨Row.ofRecord headers row, by simp [hrow], fun j hj => ?_, fun name hname => ?_⟩
    · exact Row.get?_ofRecord_getElem h j hj
    · rw [Row.get?_ofRecord, List.lookup_eq_none_iff]
      rintro ⟨key, v⟩ hmem
      have hkey : key ∈ headers := (List.of_mem_zip hmem).1
      exact bne_iff_ne.mpr fun heq => hname (heq ▸ hkey)

theorem exists_keeps_filter (h : Writable headers rows) (hkept : rows.filter (· ≠ [[]]) ≠ []) :
    ∃ t, parse (Csv.quotedText (headers :: rows)) = .ok t ∧
      t.Keeps headers (rows.filter (· ≠ [[]])) := by
  have hrows : (rows.filter (· ≠ [[]])).map (Row.ofRecord headers) ≠ [] := by simpa using hkept
  refine ⟨_, ?_, keeps_ofRecord h.distinct hrows⟩
  rw [parse_quotedText h, ofRecords, h.map_headerName, dif_neg hrows]

theorem parse_eq_error (h : Writable headers rows) (hkept : rows.filter (· ≠ [[]]) = []) :
    parse (Csv.quotedText (headers :: rows)) = .error .noRows := by
  rw [parse_quotedText h, ofRecords, hkept]
  exact dif_pos rfl

/-- A table is read back as it was written exactly if none of its rows is one empty field. -/
theorem exists_keeps_iff (h : Writable headers rows) :
    (∃ t, parse (Csv.quotedText (headers :: rows)) = .ok t ∧ t.Keeps headers rows) ↔
      ∀ row ∈ rows, row ≠ [[]] := by
  constructor
  · rintro ⟨t, ht, hkeeps⟩
    have hlength : (rows.filter (· ≠ [[]])).length = rows.length := by
      by_cases hkept : rows.filter (· ≠ [[]]) = []
      · rw [parse_eq_error h hkept] at ht
        cases ht
      · obtain ⟨t', ht', hkeeps'⟩ := exists_keeps_filter h hkept
        obtain rfl := Except.ok.inj (ht.symm.trans ht')
        rw [← hkeeps'.length, hkeeps.length]
    simpa using List.length_filter_eq_length_iff.mp hlength
  · intro hrows
    have hall : rows.filter (· ≠ [[]]) = rows := List.filter_eq_self.mpr (by simpa using hrows)
    have hkept := exists_keeps_filter h
    rw [hall] at hkept
    exact hkept h.nonempty

theorem exists_keeps_iff_empty :
    let headers := [utf8 "user", utf8 "note"]
    let rows := [[[], []], [utf8 "say \"hi\"", utf8 "\r\n,"]]
    Writable headers rows ∧ ∃ t, parse (Csv.quotedText (headers :: rows)) = .ok t ∧
      t.Keeps headers rows := by
  intro headers rows
  have h : Writable headers rows := by
    constructor <;> decide +kernel
  exact ⟨h, (exists_keeps_iff h).mpr (by decide +kernel)⟩

/-- Of three rows with one column, the one in the middle is empty and is lost. -/
theorem exists_row_lost :
    let headers := [utf8 "user"]
    let rows := [[utf8 "alice"], [[]], [utf8 "bob"]]
    Writable headers rows ∧ ∃ t, parse (Csv.quotedText (headers :: rows)) = .ok t ∧
      t.rows = [[(utf8 "user", utf8 "alice")], [(utf8 "user", utf8 "bob")]] := by
  intro headers rows
  have h : Writable headers rows := by
    constructor <;> decide +kernel
  refine ⟨h, ⟨headers, [[(utf8 "user", utf8 "alice")], [(utf8 "user", utf8 "bob")]], by simp⟩,
    ?_, rfl⟩
  rw [parse_quotedText h]
  rfl

end Table

end LoadGenerator
