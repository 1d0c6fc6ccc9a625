import LoadGenerator.Proofs.Data.SortedMap
import LoadGenerator.Proofs.Scenario.Exchange
import LoadGenerator.Proofs.Text.Bytes

namespace LoadGenerator

open Http

variable {jar : CookieJar} {header name v : Bytes}

namespace SetCookie

theorem not_mem_parts (header : Bytes) : 59 ∉ (parts header).1 := by
  unfold parts
  cases h : Bytes.cutByte? 59 header with
  | none => exact Bytes.cutByte?_eq_none.mp h
  | some p => exact (Bytes.cutByte?_eq_some.mp h).1

theorem mem_of_mem_unquote {b : UInt8} {s : Bytes} (h : b ∈ unquote s) : b ∈ s := by
  unfold unquote at h
  split at h
  · exact List.mem_of_mem_tail (List.mem_of_mem_dropLast h)
  · exact h

theorem of_parse? (h : parse? header = some (name, v)) :
    (name ≠ [] ∧ 61 ∉ name ∧ 59 ∉ name) ∧ 59 ∉ v := by
  unfold parse? at h
  split at h
  · simp at h
  · next n w hcut =>
    obtain ⟨hn, hparts⟩ := Bytes.cutByte?_eq_some.mp hcut
    have hsemicolon : 59 ∉ n ∧ 59 ∉ w := by
      have hmem := not_mem_parts header
      rw [hparts] at hmem
      simp_all
    split at h
    · simp at h
    · next hempty =>
      obtain ⟨rfl, rfl⟩ : n.trim = name ∧ unquote w.trim = v := by simpa using h
      refine ⟨⟨by simpa using hempty, ?_, ?_⟩, ?_⟩
      · exact mt Bytes.mem_of_mem_trim hn
      · exact mt Bytes.mem_of_mem_trim hsemicolon.1
      · exact fun hv => hsemicolon.2 (Bytes.mem_of_mem_trim (mem_of_mem_unquote hv))

def Names (header name : Bytes) : Prop := ∃ v, parse? header = some (name, v)

end SetCookie

namespace CookieJar

theorem set_of_parse?_eq_none (h : SetCookie.parse? header = none) : jar.set header = jar := by
  rw [set, h]

theorem get?_set (h : SetCookie.parse? header = some (name, v)) (key : Bytes) :
    SortedMap.get? (jar.set header) key =
      if key = name then if v = [] ∨ SetCookie.expires header then none else some v
      else SortedMap.get? jar key := by
  rw [set, h]
  dsimp only
  by_cases hdrop : v = [] ∨ SetCookie.expires header = true
  · rw [if_pos (by simpa using hdrop), SortedMap.get?_erase, if_pos hdrop]
  · rw [if_neg (by simpa using hdrop), SortedMap.get?_insert, if_neg hdrop]

theorem get?_set_of_not_names (h : ¬ SetCookie.Names header name) :
    SortedMap.get? (jar.set header) name = SortedMap.get? jar name := by
  cases hparse : SetCookie.parse? header with
  | none => rw [set_of_parse?_eq_none hparse]
  | some p =>
    obtain ⟨name', v⟩ := p
    rw [get?_set hparse, if_neg]
    rintro rfl
    exact h ⟨v, hparse⟩

theorem get?_foldl_of_not_names {headers : List Bytes}
    (h : ∀ header ∈ headers, ¬ SetCookie.Names header name) :
    SortedMap.get? (headers.foldl set jar) name = SortedMap.get? jar name := by
  induction headers generalizing jar with
  | nil => rfl
  | cons header headers ih =>
    obtain ⟨hheader, h⟩ := List.forall_mem_cons.mp h
    rw [List.foldl_cons, ih h, get?_set_of_not_names hheader]

/-- The jar holds what the headers, one after the other, have last said of each name. -/
structure Reflects (jar : CookieJar) (headers : List Bytes) : Prop where
  unnamed : ∀ name, (∀ header ∈ headers, ¬ SetCookie.Names header name) →
    SortedMap.get? jar name = none
  last : ∀ before header after name v, headers = before ++ header :: after →
    SetCookie.parse? header = some (name, v) →
    (∀ later ∈ after, ¬ SetCookie.Names later name) →
    SortedMap.get? jar name = if v = [] ∨ SetCookie.expires header then none else some v
  ignored : ∀ before header after, headers = before ++ header :: after →
    SetCookie.parse? header = none → jar = (before ++ after).foldl set []

theorem reflects_foldl (headers : List Bytes) : Reflects (headers.foldl set []) headers where
  unnamed name h := get?_foldl_of_not_names h
  last before header after name v heq h hafter := by
    rw [heq, List.foldl_append, List.foldl_cons, get?_foldl_of_not_names hafter, get?_set h,
      if_pos rfl]
  ignored before header after heq h := by
    rw [heq, List.foldl_append, List.foldl_cons, set_of_parse?_eq_none h, List.foldl_append]

structure Sendable (jar : CookieJar) : Prop where
  sorted : SortedMap.Sorted jar
  name : ∀ c ∈ jar, c.1 ≠ [] ∧ 61 ∉ c.1 ∧ 59 ∉ c.1
  value : ∀ c ∈ jar, c.2 ≠ [] ∧ 59 ∉ c.2

theorem sendable_nil : Sendable [] := ⟨.nil, nofun, nofun⟩

theorem Sendable.set (h : jar.Sendable) (header : Bytes) : (jar.set header).Sendable := by
  cases hparse : SetCookie.parse? header with
  | none => rwa [set_of_parse?_eq_none hparse]
  | some p =>
    obtain ⟨name, v⟩ := p
    obtain ⟨hname, hv⟩ := SetCookie.of_parse? hparse
    rw [CookieJar.set, hparse]
    dsimp only
    split
    · refine ⟨SortedMap.sorted_erase h.sorted name, ?_, ?_⟩
      · exact fun c hc => h.name c (List.mem_of_mem_filter hc)
      · exact fun c hc => h.value c (List.mem_of_mem_filter hc)
    · next hkeep =>
      have hne : v ≠ [] := by
        rintro rfl
        exact hkeep rfl
      refine ⟨SortedMap.sorted_insert h.sorted name v, ?_, ?_⟩
      · intro c hc
        rcases SortedMap.mem_insert hc with rfl | hc
        · exact hname
        · exact h.name c hc
      · intro c hc
        rcases SortedMap.mem_insert hc with rfl | hc
        · exact ⟨hne, hv⟩
        · exact h.value c hc

theorem Sendable.foldl (h : jar.Sendable) (headers : List Bytes) :
    (headers.foldl CookieJar.set jar).Sendable := by
  induction headers generalizing jar with
  | nil => exact h
  | cons header headers ih => exact ih (h.set header)

def dropSpace : Bytes → Bytes
  | 32 :: s => s
  | s => s

/-- The pieces between the semicolons; a space after a semicolon belongs to it. -/
def pieces (header : Bytes) : List Bytes :=
  match Bytes.splitOn 59 header with
  | [] => []
  | first :: later => first :: later.map dropSpace

def decode? (header : Bytes) : Option (List (Bytes × Bytes)) :=
  (pieces header).mapM (Bytes.cutByte? 61)

theorem Sendable.not_mem_pair (h : jar.Sendable) : ∀ p ∈ jar.map pair, 59 ∉ p := by
  intro p hp
  obtain ⟨c, hc, rfl⟩ := List.mem_map.mp hp
  have hequals : 59 ∉ utf8 "=" := by decide
  simp [pair, (h.name c hc).2.2, (h.value c hc).2, hequals]

theorem pieces_join {piece : Bytes} {later : List Bytes} (h : ∀ p ∈ piece :: later, 59 ∉ p) :
    pieces (Bytes.join (utf8 "; ") (piece :: later)) = piece :: later := by
  have hmem : (59 : UInt8) ∉ ([32] : Bytes) := by decide
  have hsplit := Bytes.splitOn_append_join hmem List.not_mem_nil h
  have hspace : later.map (dropSpace ∘ ([32] ++ ·)) = later := List.map_id' later
  rw [List.nil_append, List.nil_append] at hsplit
  have hsep : utf8 "; " = [59, 32] := by decide
  rw [pieces, hsep, hsplit]
  dsimp only
  rw [List.map_map, hspace]

theorem cutByte?_pair {c : Bytes × Bytes} (h : 61 ∉ c.1) : Bytes.cutByte? 61 (pair c) = some c := by
  rw [pair, List.append_assoc]
  exact Bytes.cutByte?_append h

theorem mapM_cutByte?_pair (h : ∀ c ∈ jar, 61 ∉ c.1) :
    (jar.map pair).mapM (Bytes.cutByte? 61) = some jar := by
  induction jar with
  | nil => rfl
  | cons c jar ih =>
    obtain ⟨hc, h⟩ := List.forall_mem_cons.mp h
    rw [List.map_cons, List.mapM_cons, cutByte?_pair hc, ih h]
    rfl

theorem header?_eq_none : jar.header? = none ↔ jar = [] := by
  simp [header?]

theorem Sendable.decode?_header (h : jar.Sendable) (hheader : jar.header? = some header) :
    decode? header = some jar := by
  cases jar with
  | nil => simp [header?] at hheader
  | cons c jar =>
    obtain rfl : Bytes.join (utf8 "; ") ((c :: jar).map pair) = header := by
      simpa [header?] using hheader
    rw [decode?, List.map_cons, pieces_join h.not_mem_pair, ← List.map_cons]
    exact mapM_cutByte?_pair fun c hc => (h.name c hc).2.1

/-- Whatever responses come, the jar holds what they have last said of each cookie, and its header,
which is missing only where there are no cookies, tells exactly what the jar holds. -/
theorem reflects_responses (responses : List Headers) :
    let jar : CookieJar := responses.foldl update []
    Reflects jar (responses.flatMap SetCookie.ofHeaders) ∧ Sendable jar ∧
      (jar.header? = none ↔ jar = []) ∧ ∀ header, jar.header? = some header →
        decode? header = some jar := by
  have hfold : ∀ jar : CookieJar, responses.foldl update jar =
      (responses.flatMap SetCookie.ofHeaders).foldl set jar := by
    intro jar
    induction responses generalizing jar with
    | nil => rfl
    | cons headers responses ih =>
      rw [List.foldl_cons, ih, update_eq, List.flatMap_cons, List.foldl_append]
  have hsendable : Sendable (responses.foldl update []) := hfold [] ▸ sendable_nil.foldl _
  refine ⟨hfold [] ▸ reflects_foldl _, hsendable, header?_eq_none, fun header hheader => ?_⟩
  exact hsendable.decode?_header hheader

end CookieJar

end LoadGenerator
