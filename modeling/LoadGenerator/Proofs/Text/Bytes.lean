import LoadGenerator.Text.Bytes
import Mathlib.Data.List.DropRight

namespace LoadGenerator.Bytes

variable {b : UInt8} {s l r piece : Bytes} {pieces : List Bytes}

theorem span_append {p : UInt8 → Bool} (hl : ∀ b ∈ l, p b = true)
    (hr : ∀ b ∈ r.head?, p b = false) :
    (l ++ r).takeWhile p = l ∧ (l ++ r).dropWhile p = r := by
  rw [List.takeWhile_append_of_pos hl, List.dropWhile_append_of_pos hl]
  cases r with
  | nil => exact ⟨List.append_nil l, rfl⟩
  | cons b r =>
    have hb : ¬p b = true := by simp [hr b rfl]
    rw [List.takeWhile_cons_of_neg hb, List.dropWhile_cons_of_neg hb]
    exact ⟨List.append_nil l, rfl⟩

theorem cutByte?_append (h : b ∉ l) : cutByte? b (l ++ b :: r) = some (l, r) := by
  induction l with
  | nil => simp [cutByte?]
  | cons c l ih =>
    rw [List.mem_cons, not_or] at h
    have hc : (c == b) = false := beq_false_of_ne (Ne.symm h.1)
    rw [List.cons_append, cutByte?, hc, ih h.2]
    rfl

theorem cutByte?_eq_none : cutByte? b s = none ↔ b ∉ s := by
  induction s with
  | nil => simp [cutByte?]
  | cons c s ih =>
    rw [cutByte?]
    by_cases h : c = b
    · simp [h]
    · simp [h, ih, Ne.symm h]

theorem cutByte?_eq_some : cutByte? b s = some (l, r) ↔ b ∉ l ∧ s = l ++ b :: r := by
  refine ⟨fun h => ?_, fun ⟨h, hs⟩ => hs ▸ cutByte?_append h⟩
  induction s generalizing l with
  | nil => simp [cutByte?] at h
  | cons c s ih =>
    rw [cutByte?] at h
    by_cases hc : c = b
    · obtain ⟨rfl, rfl⟩ : [] = l ∧ s = r := by simpa [hc] using h
      simp [hc]
    · obtain ⟨l', hs, rfl⟩ : ∃ l', cutByte? b s = some (l', r) ∧ c :: l' = l := by
        simpa [hc] using h
      obtain ⟨hl, rfl⟩ := ih hs
      simp [hl, Ne.symm hc]

theorem splitOn_append (h : b ∉ l) : splitOn b (l ++ b :: r) = l :: splitOn b r := by
  induction l with
  | nil => simp [splitOn]
  | cons c l ih =>
    rw [List.mem_cons, not_or] at h
    have hc : (c == b) = false := beq_false_of_ne (Ne.symm h.1)
    rw [List.cons_append, splitOn, hc, ih h.2]
    rfl

theorem splitOn_of_not_mem (h : b ∉ s) : splitOn b s = [s] := by
  induction s with
  | nil => rfl
  | cons c s ih =>
    rw [List.mem_cons, not_or] at h
    have hc : (c == b) = false := beq_false_of_ne (Ne.symm h.1)
    rw [splitOn, hc, ih h.2]
    rfl

theorem join_cons_cons (sep : Bytes) :
    join sep (l :: r :: pieces) = l ++ (sep ++ join sep (r :: pieces)) := by
  simp [join]

theorem join_append (sep : Bytes) {later : List Bytes} (h : pieces ≠ []) (hlater : later ≠ []) :
    join sep (pieces ++ later) = join sep pieces ++ (sep ++ join sep later) := by
  induction pieces with
  | nil => exact absurd rfl h
  | cons piece pieces ih =>
    cases pieces with
    | nil =>
      obtain ⟨next, later, rfl⟩ := List.exists_cons_of_ne_nil hlater
      rw [List.singleton_append, join_cons_cons]
      simp [join]
    | cons next pieces =>
      rw [List.cons_append, List.cons_append, join_cons_cons, ← List.cons_append,
        ih (List.cons_ne_nil _ _), join_cons_cons, List.append_assoc, List.append_assoc]

theorem splitOn_append_join {sep : Bytes} (hsep : b ∉ sep) (hl : b ∉ l)
    (h : ∀ p ∈ piece :: pieces, b ∉ p) :
    splitOn b (l ++ join (b :: sep) (piece :: pieces)) = (l ++ piece) :: pieces.map (sep ++ ·) := by
  induction pieces generalizing l piece with
  | nil =>
    have hjoin : join (b :: sep) [piece] = piece := by simp [join]
    have hmem : b ∉ l ++ piece := by simp [hl, h piece List.mem_cons_self]
    rw [hjoin, splitOn_of_not_mem hmem]
    rfl
  | cons next pieces ih =>
    obtain ⟨hpiece, h⟩ := List.forall_mem_cons.mp h
    have hmem : b ∉ l ++ piece := by simp [hl, hpiece]
    rw [join_cons_cons, ← List.append_assoc, List.cons_append, splitOn_append hmem, ih hsep h]
    rfl

theorem append_of_cut? {sep : Bytes} (h : cut? sep s = some (l, r)) : s = l ++ (sep ++ r) := by
  induction s generalizing l with
  | nil =>
    rw [cut?] at h
    split at h
    · next hempty =>
      obtain ⟨rfl, rfl⟩ : [] = l ∧ [] = r := by simpa using h
      simpa using hempty
    · simp at h
  | cons c s ih =>
    rw [cut?] at h
    split at h
    · next hprefix =>
      obtain ⟨rfl, rfl⟩ : [] = l ∧ (c :: s).drop sep.length = r := by simpa using h
      exact List.prefix_iff_eq_append.mp (List.isPrefixOf_iff_prefix.mp hprefix) |>.symm
    · obtain ⟨l', hs, rfl⟩ : ∃ l', cut? sep s = some (l', r) ∧ c :: l' = l := by simpa using h
      rw [ih hs]
      rfl

theorem cut?_append {sep : Bytes} (h : b ∉ l) :
    cut? (b :: sep) (l ++ (b :: sep ++ r)) = some (l, r) := by
  induction l with
  | nil => simp [cut?]
  | cons c l ih =>
    rw [List.mem_cons, not_or] at h
    have hc : (b == c) = false := beq_false_of_ne h.1
    rw [List.cons_append, cut?, List.isPrefixOf, hc, ih h.2]
    rfl

theorem cutLastByte?_append (h : b ∉ r) : cutLastByte? b (l ++ b :: r) = some (l, r) := by
  have hreverse : (l ++ b :: r).reverse = r.reverse ++ b :: l.reverse := by simp
  have hb : b ∉ r.reverse := mt List.mem_reverse.mp h
  rw [cutLastByte?, hreverse, cutByte?_append hb]
  simp

theorem cutLastByte?_eq_none : cutLastByte? b s = none ↔ b ∉ s := by
  rw [cutLastByte?, Option.map_eq_none_iff, cutByte?_eq_none, List.mem_reverse]

theorem dropRightWhile_append {p : UInt8 → Bool} (h : ∀ b ∈ l.getLast?, p b = false) :
    dropRightWhile p (l ++ r) = l ++ dropRightWhile p r := by
  have hl : l.reverse.dropWhile p = l.reverse := by
    cases hr : l.reverse with
    | nil => rfl
    | cons c init =>
      have hlast : l.getLast? = some c := by rw [← List.head?_reverse, hr, List.head?_cons]
      exact List.dropWhile_cons_of_neg (by simp [h c hlast])
  rw [dropRightWhile, List.reverse_append, List.dropWhile_append, hl]
  split
  · next hempty =>
    rw [dropRightWhile, List.isEmpty_iff.mp hempty]
    simp
  · rw [List.reverse_append, List.reverse_reverse]
    rfl

theorem dropRightWhile_prefix (p : UInt8 → Bool) (s : Bytes) : dropRightWhile p s <+: s := by
  rw [← List.reverse_suffix, dropRightWhile, List.reverse_reverse]
  exact List.dropWhile_suffix p

theorem head_dropRightWhile_append {p : UInt8 → Bool} (h : b ∈ (dropRightWhile p l ++ r).head?) :
    b ∈ l.head? ∨ b ∈ r.head? := by
  obtain ⟨rest, hrest⟩ := dropRightWhile_prefix p l
  cases hkept : dropRightWhile p l with
  | nil =>
    rw [hkept] at h
    exact .inr h
  | cons c kept =>
    rw [hkept] at h hrest
    rw [← hrest]
    exact .inl h

theorem mem_of_mem_dropRightWhile {p : UInt8 → Bool} (h : b ∈ dropRightWhile p s) : b ∈ s :=
  List.mem_reverse.mp ((List.dropWhile_suffix p).mem (List.mem_reverse.mp h))

theorem mem_of_mem_trim (h : b ∈ trim s) : b ∈ s :=
  (List.dropWhile_suffix isBlank).mem (mem_of_mem_dropRightWhile h)

def Blank (s : Bytes) : Prop := ∀ b ∈ s, isBlank b = true

theorem Blank.append (hl : Blank l) (hr : Blank r) : Blank (l ++ r) := by
  intro b hb
  rcases List.mem_append.mp hb with hb | hb
  · exact hl b hb
  · exact hr b hb

structure Trimmed (s : Bytes) : Prop where
  head : ∀ b ∈ s.head?, isBlank b = false
  last : ∀ b ∈ s.getLast?, isBlank b = false

theorem trimmed_of_forall (h : ∀ b ∈ s, isBlank b = false) : Trimmed s where
  head b hb := h b (List.mem_of_mem_head? hb)
  last b hb := h b (List.mem_of_getLast? hb)

theorem Trimmed.append_append (hl : Trimmed l) (hr : Trimmed r) (hl' : l ≠ []) (hr' : r ≠ [])
    (s : Bytes) : Trimmed (l ++ (s ++ r)) where
  head b hb := by
    rw [List.head?_append_of_ne_nil l hl'] at hb
    exact hl.head b hb
  last b hb := by
    rw [← List.append_assoc, List.getLast?_append_of_ne_nil _ hr'] at hb
    exact hr.last b hb

theorem trim_append (hl : Blank l) (hs : Trimmed s) (hr : Blank r) : trim (l ++ (s ++ r)) = s := by
  have hempty : r.dropRightWhile isBlank = [] := List.rdropWhile_eq_nil_iff.mpr hr
  rw [trim, List.dropWhile_append_of_pos hl]
  cases s with
  | nil =>
    rw [List.nil_append, List.dropWhile_eq_nil_iff.mpr hr]
    rfl
  | cons b s =>
    have hb : ¬isBlank b = true := by simp [hs.head b rfl]
    rw [List.cons_append, List.dropWhile_cons_of_neg hb, ← List.cons_append,
      dropRightWhile_append hs.last, hempty, List.append_nil]

theorem trimmed_trim (s : Bytes) : Trimmed (trim s) := by
  constructor
  · intro b hb
    have hhead : b ∈ (s.dropWhile isBlank).head? := by
      simpa using head_dropRightWhile_append (r := []) (by rwa [List.append_nil])
    have := List.head?_dropWhile_not isBlank s
    rw [Option.mem_def.mp hhead] at this
    simpa using this
  · intro b hb
    obtain ⟨hne, rfl⟩ := List.mem_getLast?_eq_getLast hb
    exact Bool.eq_false_iff.mpr (List.rdropWhile_last_not isBlank _ hne)

theorem exists_blanks (s : Bytes) : ∃ l r, s = l ++ (trim s ++ r) ∧ Blank l ∧ Blank r := by
  refine ⟨s.takeWhile isBlank, (s.dropWhile isBlank).rtakeWhile isBlank, ?_, ?_, ?_⟩
  · have hright : trim s ++ (s.dropWhile isBlank).rtakeWhile isBlank = s.dropWhile isBlank :=
      List.rdropWhile_append_rtakeWhile
    rw [hright, List.takeWhile_append_dropWhile]
  · exact fun b hb => List.mem_takeWhile_imp hb
  · exact fun b hb => List.mem_rtakeWhile_imp hb

end LoadGenerator.Bytes
