import LoadGenerator.Program
import LoadGenerator.Proofs.Text.Numeral
import LoadGenerator.Scalar.Rational

namespace LoadGenerator.CommandLine

open Numeral (IsNumeral OpensWord Sign)

namespace Setting

def word : Setting → Bytes
  | plan => utf8 "--plan"
  | url => utf8 "--url"
  | workers => utf8 "--workers"
  | duration => utf8 "--duration"
  | threads => utf8 "--threads"
  | jsonReport => utf8 "--json-report"

def IsNumeric (s : Setting) : Prop := s = workers ∨ s = threads

end Setting

inductive Item where
  | watch
  | setting (s : Setting) (v : Bytes)

namespace Item

def words : Item → List Bytes
  | watch => [utf8 "--watch"]
  | setting s v => [s.word, v]

def value? (s : Setting) : Item → Option Bytes
  | watch => none
  | setting s' v => if s' = s then some v else none

end Item

def spell (items : List Item) : List Bytes := items.flatMap Item.words

theorem spell_cons_append (i : Item) (items : List Item) (rest : List Bytes) :
    spell (i :: items) ++ rest = i.words ++ (spell items ++ rest) := by
  rw [spell, List.flatMap_cons, List.append_assoc, spell]

/-- The value that an option is given last. -/
def given (s : Setting) (items : List Item) : Option Bytes :=
  (items.filterMap (Item.value? s)).getLast?

def known : List Bytes := spellings.map (·.1)

def helpWords : List Bytes := [utf8 "--help", utf8 "-h"]

/-- The whole value is a numeral of a number that fits in a word. -/
def Whole (v : Bytes) (n : Nat) : Prop :=
  IsNumeral v ∧ Numeral.value v = n ∧ n ≤ Word.largest

/-- A numeral is at the front of the value, after blanks and maybe a sign. -/
def Front (v : Bytes) (n : Nat) : Prop :=
  ∃ sign digits rest, OpensWord v sign digits rest ∧ Numeral.value digits ≤ Word.largest ∧
    sign.apply (Numeral.value digits) = n

/-- Why a value is not read as a number. -/
inductive Misread : Bytes → Failure → Prop
  | notNumber {v : Bytes} (h : ∀ sign digits rest, ¬OpensWord v sign digits rest) :
    Misread v .notNumber
  | outOfRange {v digits rest : Bytes} {sign : Sign} (h : OpensWord v sign digits rest)
    (hlarge : Word.largest < Numeral.value digits) : Misread v .outOfRange

variable {v : Bytes} {n : Nat} {e : Failure}

theorem number_of_opensWord {digits rest : Bytes} {sign : Sign}
    (h : OpensWord v sign digits rest) :
    number v = if Word.largest < Numeral.value digits then .error .outOfRange
      else .ok (sign.apply (Numeral.value digits)) := by
  rw [number, Numeral.readWord_of_opensWord h]
  by_cases hlarge : Word.largest < Numeral.value digits
  · rw [if_pos hlarge, if_pos hlarge]
  · rw [if_neg hlarge, if_neg hlarge]

theorem number_of_not_opensWord (h : ∀ sign digits rest, ¬OpensWord v sign digits rest) :
    number v = .error .notNumber := by
  rw [number, Numeral.readWord_of_not_opensWord h]

theorem number_of_front (h : Front v n) : number v = .ok n := by
  obtain ⟨sign, digits, rest, hopens, hfits, rfl⟩ := h
  rw [number_of_opensWord hopens, if_neg (Nat.not_lt.mpr hfits)]

theorem number_of_misread (h : Misread v e) : number v = .error e := by
  cases h with
  | notNumber h => exact number_of_not_opensWord h
  | outOfRange h hlarge => rw [number_of_opensWord h, if_pos hlarge]

theorem front_or_misread (v : Bytes) : (∃ n, Front v n) ∨ ∃ e, Misread v e := by
  by_cases h : ∃ sign digits rest, OpensWord v sign digits rest
  · obtain ⟨sign, digits, rest, h⟩ := h
    by_cases hfits : Numeral.value digits ≤ Word.largest
    · exact .inl ⟨_, sign, digits, rest, h, hfits, rfl⟩
    · exact .inr ⟨_, .outOfRange h (Nat.lt_of_not_le hfits)⟩
  · exact .inr ⟨_, .notNumber fun sign digits rest hopens => h ⟨sign, digits, rest, hopens⟩⟩

theorem number_eq_ok_iff : number v = .ok n ↔ Front v n := by
  refine ⟨fun h => ?_, number_of_front⟩
  rcases front_or_misread v with ⟨m, hm⟩ | ⟨e, he⟩
  · rw [number_of_front hm] at h
    obtain rfl := Except.ok.inj h
    exact hm
  · rw [number_of_misread he] at h
    cases h

theorem number_eq_error_iff : number v = .error e ↔ Misread v e := by
  refine ⟨fun h => ?_, number_of_misread⟩
  rcases front_or_misread v with ⟨m, hm⟩ | ⟨e', he⟩
  · rw [number_of_front hm] at h
    cases h
  · rw [number_of_misread he] at h
    obtain rfl := Except.error.inj h
    exact he

theorem Whole.front (h : Whole v n) : Front v n := by
  obtain ⟨hv, rfl, hfits⟩ := h
  exact ⟨.none, v, [], @OpensWord.intro [] v v [] .none nofun hv.opens, hfits, rfl⟩

theorem Front.unique {m : Nat} (hm : Front v m) (hn : Front v n) : m = n :=
  Except.ok.inj ((number_of_front hm).symm.trans (number_of_front hn))

theorem Misread.not_front (h : Misread v e) : ¬Front v n := by
  intro hn
  cases (number_of_misread h).symm.trans (number_of_front hn)

variable {takes : Bytes → Nat → Prop} {items : List Item} {o o' : Options}

def Accepted (takes : Bytes → Nat → Prop) (items : List Item) : Prop :=
  ∀ s v, .setting s v ∈ items → s.IsNumeric → ∃ n, takes v n

/-- What has been asked for; of an option that is given twice, the last value counts. -/
structure Holds (takes : Bytes → Nat → Prop) (items : List Item) (o : Options) : Prop where
  plan : o.plan = given .plan items
  url : o.url = given .url items
  workers : Option.Rel takes (given .workers items) o.workers
  duration : o.duration = given .duration items
  threads : ∃ n?, Option.Rel takes (given .threads items) n? ∧ o.threads = n?.getD 0
  watch : o.watch = true ↔ .watch ∈ items
  jsonReport : o.jsonReport = given .jsonReport items

def apply (o : Options) : Item → Except Failure Options
  | .watch => .ok { o with watch := true }
  | .setting s v => set o s v

theorem given_append (s : Setting) (items : List Item) (i : Item) :
    given s (items ++ [i]) = (i.value? s).or (given s items) := by
  rw [given, List.filterMap_append, List.getLast?_append]
  cases h : i.value? s <;> simp [h, given]

theorem mem_of_given {s : Setting} (h : given s items = some v) : .setting s v ∈ items := by
  obtain ⟨i, hi, hv⟩ := List.mem_filterMap.mp (List.mem_of_getLast? h)
  cases i with
  | watch => cases hv
  | setting s' v' =>
    obtain ⟨rfl, rfl⟩ : s' = s ∧ v' = v := by simpa [Item.value?] using hv
    exact hi

theorem exists_of_map {α β : Type} {x : Except Failure α} {f : α → β} {b : β}
    (h : x.map f = .ok b) : ∃ a, x = .ok a ∧ f a = b := by
  cases x with
  | error e => cases h
  | ok a => exact ⟨a, rfl, Except.ok.inj h⟩

theorem exists_of_bind {α β : Type} {x : Except Failure α} {f : α → Except Failure β} {b : β}
    (h : x >>= f = .ok b) : ∃ a, x = .ok a ∧ f a = .ok b := by
  cases x with
  | error e => cases h
  | ok a => exact ⟨a, rfl, h⟩

theorem set_eq_error_iff {s : Setting} :
    set o s v = .error e ↔ s.IsNumeric ∧ number v = .error e := by
  cases s <;> cases h : number v <;> simp [set, Setting.IsNumeric, h, Except.map]

theorem accepted_of_set {s : Setting} (h : set o s v = .ok o') (hs : s.IsNumeric) :
    ∃ n, Front v n := by
  rcases front_or_misread v with hn | ⟨e, he⟩
  · exact hn
  · rw [set_eq_error_iff.mpr ⟨hs, number_of_misread he⟩] at h
    cases h

theorem Holds.append (h : Holds Front items o) {i : Item} (hi : apply o i = .ok o') :
    Holds Front (items ++ [i]) o' := by
  obtain ⟨hplan, hurl, hworkers, hduration, hthreads, hwatch, hreport⟩ := h
  cases i with
  | watch =>
    obtain rfl := Except.ok.inj hi
    constructor <;> simp [given_append, Item.value?, *]
  | setting s v =>
    cases s with
    | workers =>
      obtain ⟨n, hn, rfl⟩ := exists_of_map hi
      have hn := number_eq_ok_iff.mp hn
      constructor <;> simp [given_append, Item.value?, *]
    | threads =>
      obtain ⟨n, hn, rfl⟩ := exists_of_map hi
      have hn := number_eq_ok_iff.mp hn
      constructor <;> simp [given_append, Item.value?, *]
      exact ⟨some n, .some hn, rfl⟩
    | plan | url | duration | jsonReport =>
      obtain rfl := Except.ok.inj hi
      constructor <;> simp [given_append, Item.value?, *]

theorem holds_of_foldlM (h : items.foldlM apply noOptions = .ok o) : Holds Front items o := by
  induction items using List.reverseRecOn generalizing o with
  | nil =>
    obtain rfl := Except.ok.inj h
    constructor <;> simp [given, noOptions]
    exact ⟨none, .none, rfl⟩
  | append_singleton items i ih =>
    rw [List.foldlM_append] at h
    obtain ⟨o₁, hbefore, hlast⟩ := exists_of_bind h
    obtain ⟨o₂, hi, heq⟩ := exists_of_bind hlast
    obtain rfl := Except.ok.inj heq
    exact (ih hbefore).append hi

theorem exists_foldlM_iff (o : Options) :
    (∃ o', items.foldlM apply o = .ok o') ↔ Accepted Front items := by
  induction items generalizing o with
  | nil => exact ⟨fun _ => nofun, fun _ => ⟨o, rfl⟩⟩
  | cons i items ih =>
    constructor
    · rintro ⟨o', h⟩ s v hmem hs
      obtain ⟨o₁, hi, hitems⟩ := exists_of_bind h
      rcases List.mem_cons.mp hmem with rfl | hmem
      · exact accepted_of_set hi hs
      · exact (ih o₁).mp ⟨o', hitems⟩ s v hmem hs
    · intro h
      cases hi : apply o i with
      | error e =>
        cases i with
        | watch => cases hi
        | setting s v =>
          obtain ⟨hs, he⟩ := set_eq_error_iff.mp hi
          obtain ⟨n, hn⟩ := h s v List.mem_cons_self hs
          exact absurd hn (number_eq_error_iff.mp he).not_front
      | ok o₁ =>
        obtain ⟨o', ho'⟩ := (ih o₁).mpr fun s v hmem => h s v (List.mem_cons_of_mem _ hmem)
        refine ⟨o', ?_⟩
        rw [List.foldlM_cons, hi]
        exact ho'

theorem rel_unique {v? : Option Bytes} {m? n? : Option Nat} (hm : Option.Rel Front v? m?)
    (hn : Option.Rel Front v? n?) : m? = n? := by
  cases hm with
  | none => cases hn; rfl
  | some hm =>
    cases hn with
    | some hn => rw [hm.unique hn]

theorem Holds.unique (h : Holds Front items o) (h' : Holds Front items o') : o = o' := by
  obtain ⟨m?, hm, hthreads⟩ := h.threads
  obtain ⟨n?, hn, hthreads'⟩ := h'.threads
  obtain ⟨hplan, hurl, hworkers, hduration, -, hwatch, hreport⟩ := h
  obtain ⟨hplan', hurl', hworkers', hduration', -, hwatch', hreport'⟩ := h'
  have hsame : o.watch = o'.watch := Bool.eq_iff_iff.mpr (hwatch.trans hwatch'.symm)
  have hnumber : o.workers = o'.workers := rel_unique hworkers hworkers'
  obtain rfl := rel_unique hm hn
  cases o
  cases o'
  simp_all

theorem foldlM_of_holds (haccepted : Accepted Front items) (h : Holds Front items o) :
    items.foldlM apply noOptions = .ok o := by
  obtain ⟨o', ho'⟩ := (exists_foldlM_iff noOptions).mpr haccepted
  rw [ho', h.unique (holds_of_foldlM ho')]

theorem Holds.imp {takes' : Bytes → Nat → Prop} (h : Holds takes items o)
    (himp : ∀ s v n, .setting s v ∈ items → s.IsNumeric → takes v n → takes' v n) :
    Holds takes' items o := by
  have hrel : ∀ {s : Setting} {n? : Option Nat}, s.IsNumeric →
      Option.Rel takes (given s items) n? → Option.Rel takes' (given s items) n? := by
    intro s n? hs hn
    cases hv : given s items with
    | none =>
      rw [hv] at hn
      cases hn
      exact .none
    | some v =>
      rw [hv] at hn
      cases hn with
      | some hn => exact .some (himp s v _ (mem_of_given hv) hs hn)
  obtain ⟨n?, hn, hthreads⟩ := h.threads
  exact { h with
    workers := hrel (.inl rfl) h.workers
    threads := ⟨n?, hrel (.inr rfl) hn, hthreads⟩ }

def Flag.words : Flag → List Bytes
  | help => helpWords
  | watch => [utf8 "--watch"]
  | setting s => [s.word]

theorem flag?_word (s : Setting) : flag? s.word = some (.setting s) := by
  cases s <;> decide

theorem mem_words_of_flag? {arg : Bytes} {f : Flag} (h : flag? arg = some f) : arg ∈ f.words := by
  obtain ⟨before, after, hsplit, -⟩ := List.lookup_eq_some_iff.mp h
  have hmem : (arg, f) ∈ spellings := by simp [hsplit]
  have hall : ∀ p ∈ spellings, p.1 ∈ p.2.words := by decide
  exact hall _ hmem

theorem flag?_of_mem_helpWords {w : Bytes} (h : w ∈ helpWords) : flag? w = some .help := by
  rcases List.mem_pair.mp h with rfl | rfl <;> decide

theorem flag?_eq_none_iff {arg : Bytes} : flag? arg = none ↔ arg ∉ known := by
  rw [flag?, List.lookup_eq_none_iff, known, List.mem_map]
  constructor
  · rintro h ⟨p, hp, rfl⟩
    simpa using h p hp
  · intro h p hp
    simpa using fun heq : arg = p.1 => h ⟨p, hp, heq.symm⟩

/-- The ends of a command line that are told, and what it comes to after the options before it. -/
inductive Stop (o : Options) : List Bytes → Except Failure Command → Prop
  | done : Stop o [] (.ok (.run o))
  | help {w : Bytes} {rest : List Bytes} (h : w ∈ helpWords) : Stop o (w :: rest) (.ok .help)
  | unknown {arg : Bytes} {rest : List Bytes} (h : arg ∉ known) :
    Stop o (arg :: rest) (.error (.unknown arg))
  | incomplete {s : Setting} : Stop o [s.word] (.error (.unknown s.word))

/-- A value that is not read as a number ends a command line too. -/
inductive Escape : List Bytes → Except Failure Command → Prop
  | intro {s : Setting} {v : Bytes} {rest : List Bytes} {e : Failure} (hs : s.IsNumeric)
    (h : Misread v e) : Escape (s.word :: v :: rest) (.error e)

variable {args rest : List Bytes} {r : Except Failure Command}

theorem parseFrom_of_stop (h : Stop o args r) : parseFrom o args = r := by
  cases h with
  | done => rfl
  | @help w rest h => exact parseFrom.eq_2 o w rest (flag?_of_mem_helpWords h)
  | @unknown arg rest h =>
    have hflag := flag?_eq_none_iff.mpr h
    exact parseFrom.eq_5 o arg rest (by simp [hflag]) (by simp [hflag]) (by simp [hflag])
  | @incomplete s =>
    have hflag := flag?_word s
    exact parseFrom.eq_5 o s.word [] (by simp [hflag]) (by simp [hflag]) nofun

theorem parseFrom_of_escape (h : Escape args r) (o : Options) : parseFrom o args = r := by
  obtain @⟨s, v, rest, e, hs, h⟩ := h
  have hset : set o s v = .error e := set_eq_error_iff.mpr ⟨hs, number_of_misread h⟩
  rw [parseFrom.eq_4 o _ s v rest (flag?_word s), hset]

theorem parseFrom_words {i : Item} (h : apply o i = .ok o') (rest : List Bytes) :
    parseFrom o (i.words ++ rest) = parseFrom o' rest := by
  cases i with
  | watch =>
    obtain rfl := Except.ok.inj h
    exact parseFrom.eq_3 o _ rest (by decide)
  | setting s v =>
    have hset : set o s v = .ok o' := h
    change parseFrom o (s.word :: v :: rest) = _
    rw [parseFrom.eq_4 o _ s v rest (flag?_word s), hset]

theorem parseFrom_spell (h : items.foldlM apply o = .ok o') (rest : List Bytes) :
    parseFrom o (spell items ++ rest) = parseFrom o' rest := by
  induction items generalizing o with
  | nil =>
    obtain rfl := Except.ok.inj h
    rfl
  | cons i items ih =>
    obtain ⟨o₁, hi, hitems⟩ := exists_of_bind h
    rw [spell_cons_append, parseFrom_words hi]
    exact ih hitems

theorem exists_end (o : Options) (args : List Bytes) : ∃ items rest o',
    args = spell items ++ rest ∧ items.foldlM apply o = .ok o' ∧
      (Stop o' rest (parseFrom o args) ∨ Escape rest (parseFrom o args)) := by
  -- along the reader itself: an option stands in front of what the rest comes to
  induction o, args using parseFrom.induct with
  | case1 o => exact ⟨[], [], o, rfl, rfl, .inl .done⟩
  | case2 o arg args hflag =>
    refine ⟨[], arg :: args, o, rfl, rfl, .inl ?_⟩
    rw [parseFrom.eq_2 o arg args hflag]
    exact .help (mem_words_of_flag? hflag)
  | case3 o arg args hflag ih =>
    obtain ⟨items, rest, o', rfl, hitems, hend⟩ := ih
    obtain rfl := List.mem_singleton.mp (mem_words_of_flag? hflag)
    rw [parseFrom.eq_3 o _ _ hflag]
    exact ⟨.watch :: items, rest, o', rfl, hitems, hend⟩
  | case4 o arg s v args hflag e hset =>
    obtain rfl := List.mem_singleton.mp (mem_words_of_flag? hflag)
    obtain ⟨hs, he⟩ := set_eq_error_iff.mp hset
    refine ⟨[], s.word :: v :: args, o, rfl, rfl, .inr ?_⟩
    rw [parseFrom.eq_4 o _ s v args hflag, hset]
    exact .intro hs (number_eq_error_iff.mp he)
  | case5 o arg s v args hflag o₁ hset ih =>
    obtain ⟨items, rest, o', rfl, hitems, hend⟩ := ih
    obtain rfl := List.mem_singleton.mp (mem_words_of_flag? hflag)
    rw [parseFrom.eq_4 o _ s v _ hflag, hset]
    refine ⟨.setting s v :: items, rest, o', rfl, ?_, hend⟩
    have hi : apply o (.setting s v) = .ok o₁ := hset
    rw [List.foldlM_cons, hi]
    exact hitems
  | case6 o arg args hhelp hwatch hsetting =>
    refine ⟨[], arg :: args, o, rfl, rfl, .inl ?_⟩
    rw [parseFrom.eq_5 o arg args hhelp hwatch hsetting]
    cases hflag : flag? arg with
    | none => exact .unknown (flag?_eq_none_iff.mp hflag)
    | some f =>
      cases f with
      | help => exact absurd hflag hhelp
      | watch => exact absurd hflag hwatch
      | setting s =>
        obtain rfl := List.mem_singleton.mp (mem_words_of_flag? hflag)
        cases args with
        | nil => exact .incomplete
        | cons v args => exact absurd rfl (hsetting s v args hflag)

/-- A command line is read to its options, or what is wrong with it is told, or help is given. -/
def Reported (takes : Bytes → Nat → Prop) (args : List Bytes) (r : Except Failure Command) : Prop :=
  ∃ items rest o, args = spell items ++ rest ∧ Accepted takes items ∧ Holds takes items o ∧
    Stop o rest r

/-- A command line is not read any further than to a value that is no number. -/
def Escapes (args : List Bytes) (r : Except Failure Command) : Prop :=
  ∃ items rest, args = spell items ++ rest ∧ Accepted Front items ∧ Escape rest r

theorem parse_eq_iff : parse args = r ↔ Reported Front args r ∨ Escapes args r := by
  constructor
  · rintro rfl
    obtain ⟨items, rest, o, hargs, hitems, hend⟩ := exists_end noOptions args
    have haccepted := (exists_foldlM_iff noOptions).mp ⟨o, hitems⟩
    rcases hend with hstop | hescape
    · exact .inl ⟨items, rest, o, hargs, haccepted, holds_of_foldlM hitems, hstop⟩
    · exact .inr ⟨items, rest, hargs, haccepted, hescape⟩
  · rintro (hreported | hescapes)
    · obtain ⟨items, rest, o, rfl, haccepted, hholds, hstop⟩ := hreported
      rw [parse, parseFrom_spell (foldlM_of_holds haccepted hholds)]
      exact parseFrom_of_stop hstop
    · obtain ⟨items, rest, rfl, haccepted, hescape⟩ := hescapes
      obtain ⟨o, hitems⟩ := (exists_foldlM_iff noOptions).mpr haccepted
      rw [parse, parseFrom_spell hitems]
      exact parseFrom_of_escape hescape o

/-- Every value that is to be a number, up to the end of the options, is a numeral of one. -/
def Plain (args : List Bytes) : Prop :=
  ∀ items rest, args = spell items ++ rest → Accepted Whole items

theorem word_injective {s s' : Setting} (h : s.word = s'.word) : s = s' := by
  have hflag : flag? s.word = flag? s'.word := congrArg flag? h
  rw [flag?_word, flag?_word] at hflag
  simpa using hflag

theorem word_ne_watch (s : Setting) : s.word ≠ utf8 "--watch" := by
  cases s <;> decide

theorem words_append_injective {i i' : Item} {rest' : List Bytes}
    (h : i.words ++ rest = i'.words ++ rest') : i = i' ∧ rest = rest' := by
  cases i with
  | watch =>
    cases i' with
    | watch => exact ⟨rfl, (List.cons.inj h).2⟩
    | setting s' v' => exact absurd (List.cons.inj h).1.symm (word_ne_watch s')
  | setting s v =>
    cases i' with
    | watch => exact absurd (List.cons.inj h).1 (word_ne_watch s)
    | setting s' v' =>
      obtain ⟨hword, htail⟩ := List.cons.inj h
      obtain ⟨rfl, hrest⟩ := List.cons.inj htail
      rw [word_injective hword]
      exact ⟨rfl, hrest⟩

theorem exists_words_eq_cons (i : Item) :
    ∃ w t, i.words = w :: t ∧ w ∈ known ∧ w ∉ helpWords := by
  cases i with
  | watch => exact ⟨_, [], rfl, by decide, by decide⟩
  | setting s v => exact ⟨_, [v], rfl, by cases s <;> decide, by cases s <;> decide⟩

theorem Stop.ne_words (h : Stop o args r) (i : Item) (rest : List Bytes) :
    args ≠ i.words ++ rest := by
  intro heq
  obtain ⟨w, t, hwords, hknown, hhelp⟩ := exists_words_eq_cons i
  have hcons : args = w :: (t ++ rest) := by rw [heq, hwords, List.cons_append]
  cases h with
  | done => cases hcons
  | help h =>
    obtain ⟨rfl, -⟩ := List.cons.inj hcons
    exact hhelp h
  | unknown h =>
    obtain ⟨rfl, -⟩ := List.cons.inj hcons
    exact h hknown
  | incomplete =>
    cases i with
    | watch => exact word_ne_watch _ (List.cons.inj heq).1
    | setting s v => cases (List.cons.inj heq).2

theorem isPrefix_of_spell {items' : List Item} {rest' : List Bytes}
    (h : spell items ++ rest = spell items' ++ rest') (hend : ∀ i t, rest ≠ Item.words i ++ t) :
    items' <+: items := by
  induction items' generalizing items with
  | nil => exact List.nil_prefix
  | cons i' items' ih =>
    rw [spell_cons_append i'] at h
    cases items with
    | nil => exact absurd h (hend i' _)
    | cons i items =>
      rw [spell_cons_append] at h
      obtain ⟨rfl, htail⟩ := words_append_injective h
      exact List.cons_prefix_cons.mpr ⟨rfl, ih htail⟩

theorem Plain.not_escapes (hplain : Plain args) : ¬Escapes args r := by
  rintro ⟨items, rest, rfl, -, hescape⟩
  obtain @⟨s, v, rest, e, hs, h⟩ := hescape
  have hspell : spell items ++ s.word :: v :: rest = spell (items ++ [.setting s v]) ++ rest := by
    simp [spell, Item.words]
  obtain ⟨n, hn⟩ := hplain _ _ hspell s v (by simp) hs
  exact h.not_front hn.front

theorem reported_whole_iff : Reported Whole args (parse args) ↔ Plain args := by
  constructor
  · -- no options can be read off the command line beyond those before its end
    rintro ⟨items, rest, o, hargs, haccepted, -, hstop⟩ items' rest' hargs' s v hmem hs
    have hinitial := isPrefix_of_spell (hargs.symm.trans hargs') hstop.ne_words
    exact haccepted s v (hinitial.subset hmem) hs
  · intro hplain
    rcases parse_eq_iff.mp rfl with ⟨items, rest, o, hargs, -, hholds, hstop⟩ | hescapes
    · have haccepted := hplain items rest hargs
      refine ⟨items, rest, o, hargs, haccepted, hholds.imp fun s v n hmem hs hn => ?_, hstop⟩
      obtain ⟨m, hm⟩ := haccepted s v hmem hs
      exact hm.front.unique hn ▸ hm
    · exact absurd hescapes hplain.not_escapes

theorem Stop.eq_unknown (h : Stop o rest (.error e)) : ∃ arg, e = .unknown arg := by
  cases h with
  | unknown => exact ⟨_, rfl⟩
  | incomplete => exact ⟨_, rfl⟩

theorem exists_run_of_plain {α : Type} [Scalar α] (w : Program.World α) (h : Plain args) :
    ∃ e, Program.run w args = .ok e := by
  obtain ⟨items, rest, o, -, -, -, hstop⟩ := reported_whole_iff.mpr h
  rw [Program.run]
  generalize parse args = r at hstop
  cases r with
  | ok c => cases c <;> exact ⟨_, rfl⟩
  | error e =>
    obtain ⟨arg, rfl⟩ := hstop.eq_unknown
    exact ⟨_, rfl⟩

/-- What a command line comes to, and what the program makes of it. -/
structure Accounts {α : Type} [Scalar α] (w : Program.World α) (args : List Bytes) : Prop where
  parse_eq_iff : ∀ r, parse args = r ↔ Reported Front args r ∨ Escapes args r
  reported_iff : Reported Whole args (parse args) ↔ Plain args
  ends : Plain args → ∃ e, Program.run w args = .ok e ∧
    (parse args = .ok .help → e.status = 0 ∧ e.notices = usage w.name) ∧
    ∀ arg, parse args = .error (.unknown arg) →
      e.status = 1 ∧ e.notices = complaint arg :: usage w.name

theorem accounts_args {α : Type} [Scalar α] (w : Program.World α) (args : List Bytes) :
    Accounts w args where
  parse_eq_iff _ := parse_eq_iff
  reported_iff := reported_whole_iff
  ends h := by
    obtain ⟨e, he⟩ := exists_run_of_plain w h
    refine ⟨e, he, fun hhelp => ?_, fun arg hunknown => ?_⟩
    · rw [Program.run, hhelp] at he
      obtain rfl := Except.ok.inj he
      exact ⟨rfl, rfl⟩
    · rw [Program.run, hunknown] at he
      obtain rfl := Except.ok.inj he
      exact ⟨rfl, rfl⟩

theorem accounts_args_workers :
    let w : Program.World Rat :=
      ⟨[], .empty, .ofAnswers [], none, fun _ => 0, 0, 1, fun _ => .null⟩
    let args := [utf8 "--workers", utf8 "12"]
    Plain args ∧ ∃ e, Program.run w args = .ok e := by
  intro w args
  have hwhole : Whole (utf8 "12") 12 := ⟨by decide, by decide, by decide⟩
  have haccepted : Accepted Whole [.setting .workers (utf8 "12")] := by
    intro s v hmem hs
    obtain ⟨rfl, rfl⟩ : s = .workers ∧ v = utf8 "12" := by simpa using hmem
    exact ⟨12, hwhole⟩
  have hholds : Holds Whole [.setting .workers (utf8 "12")]
      { noOptions with workers := some 12 } :=
    ⟨rfl, rfl, .some hwhole, rfl, ⟨none, .none, rfl⟩, by simp [noOptions], rfl⟩
  have hplain : Plain args := (accounts_args w args).reported_iff.mp
    ⟨[.setting .workers (utf8 "12")], [], _, rfl, haccepted, hholds, .done⟩
  obtain ⟨e, he, -⟩ := (accounts_args w args).ends hplain
  exact ⟨hplain, e, he⟩

/-- A number that is none ends the program without a word, and one with more behind it is taken. -/
theorem exists_not_reported :
    let args (v : String) := [utf8 "--url", utf8 "http://x", utf8 "--workers", utf8 v]
    parse (args "abc") = .error .notNumber ∧
      parse (args "12abc") =
        .ok (.run { noOptions with url := some (utf8 "http://x"), workers := some 12 }) ∧
      ∀ v ∈ ["abc", "12abc"], ¬Reported Whole (args v) (parse (args v)) := by
  refine ⟨by decide, by decide, fun v hv hreported => ?_⟩
  obtain ⟨n, hn, -⟩ := reported_whole_iff.mp hreported
    [.setting .url (utf8 "http://x"), .setting .workers (utf8 v)] [] rfl .workers (utf8 v)
    (by simp) (.inl rfl)
  have hdigits : ∀ v ∈ ["abc", "12abc"], ¬IsNumeral (utf8 v) := by decide
  exact hdigits v hv hn

end LoadGenerator.CommandLine
