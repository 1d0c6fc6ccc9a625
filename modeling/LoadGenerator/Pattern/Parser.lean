import LoadGenerator.Pattern.Basic
import LoadGenerator.Text.Numeral

namespace LoadGenerator.Pattern

def digitRanges : List (UInt8 × UInt8) := [(48, 57)]

def wordRanges : List (UInt8 × UInt8) := [(48, 57), (65, 90), (95, 95), (97, 122)]

def spaceRanges : List (UInt8 × UInt8) := [(9, 13), (32, 32)]

def gaps : Nat → List (UInt8 × UInt8) → List (UInt8 × UInt8)
  | next, [] => if next < 256 then [(UInt8.ofNat next, 255)] else []
  | next, (low, high) :: rest =>
    let more := gaps (high.toNat + 1) rest
    if next < low.toNat then (UInt8.ofNat next, low - 1) :: more else more

def classRanges? (b : UInt8) : Option (List (UInt8 × UInt8)) :=
  match b with
  | 100 => some digitRanges
  | 119 => some wordRanges
  | 115 => some spaceRanges
  | 68 => some (gaps 0 digitRanges)
  | 87 => some (gaps 0 wordRanges)
  | 83 => some (gaps 0 spaceRanges)
  | _ => none

def escapedByte (b : UInt8) : UInt8 :=
  match b with
  | 48 => 0
  | 97 => 7
  | 98 => 8
  | 116 => 9
  | 110 => 10
  | 118 => 11
  | 102 => 12
  | 114 => 13
  | 101 => 27
  | _ => b

namespace Parser

def hexByte? : Bytes → Option (UInt8 × Bytes)
  | a :: s => do
    let high ← Numeral.hexDigit? a
    match s.head?.bind Numeral.hexDigit? with
    | some low => some (UInt8.ofNat (16 * high + low), s.tail)
    | none => some (UInt8.ofNat high, s)
  | [] => none

def escaped? : Bytes → Option (UInt8 × Bytes)
  | 120 :: s => hexByte? s
  | b :: s => some (escapedByte b, s)
  | [] => none

def escapeExpr? : Bytes → Option (Expr × Bytes)
  | 98 :: s => some (.wordBoundary false, s)
  | 66 :: s => some (.wordBoundary true, s)
  | b :: s =>
    match classRanges? b with
    | some ranges => some (.set ⟨false, ranges⟩, s)
    | none => (escaped? (b :: s)).map fun (b, s) => (.set (.single b), s)
  | [] => none

def classItem? : Bytes → Option ((List (UInt8 × UInt8) ⊕ UInt8) × Bytes)
  | 92 :: b :: s =>
    match classRanges? b with
    | some ranges => some (.inl ranges, s)
    | none => (escaped? (b :: s)).map fun (b, s) => (.inr b, s)
  | [92] => none
  | b :: s => some (.inr b, s)
  | [] => none

/-- One item of a class: a named class, a range, or a single byte. A hyphen before the closing
bracket stands for itself. -/
def classRange? (s : Bytes) : Option (List (UInt8 × UInt8) × Bytes) := do
  match ← classItem? s with
  | (.inl ranges, s) => some (ranges, s)
  | (.inr low, 45 :: 93 :: s) => some ([(low, low)], 45 :: 93 :: s)
  | (.inr low, 45 :: s) =>
    match ← classItem? s with
    | (.inr high, s) => if high < low then none else some ([(low, high)], s)
    | (.inl _, _) => none
  | (.inr low, s) => some ([(low, low)], s)

def classItems? : Nat → Bool → Bytes → Option (List (UInt8 × UInt8) × Bytes)
  | 0, _, _ => none
  | fuel + 1, first, s =>
    match first, s with
    | false, 93 :: s => some ([], s)
    | _, s => do
      let (ranges, s) ← classRange? s
      let (more, s) ← classItems? fuel false s
      some (ranges ++ more, s)

def class? : Bytes → Option (Expr × Bytes)
  | 94 :: s => (classItems? (s.length + 1) true s).map fun (r, s) => (.set ⟨true, r⟩, s)
  | s => (classItems? (s.length + 1) true s).map fun (r, s) => (.set ⟨false, r⟩, s)

def numeral? (s : Bytes) : Option (Nat × Bytes) :=
  let digits := s.takeWhile Bytes.isDigit
  if digits.isEmpty then none else some (Numeral.value digits, s.dropWhile Bytes.isDigit)

def bounds? (s : Bytes) : Option ((Nat × Option Nat) × Bytes) := do
  let (least, s) ← numeral? s
  match s with
  | 125 :: s => some ((least, some least), s)
  | 44 :: 125 :: s => some ((least, none), s)
  | 44 :: s =>
    let (most, s) ← numeral? s
    match s with
    | 125 :: s => some ((least, some most), s)
    | _ => none
  | _ => none

def quantifier? : Bytes → Option ((Nat × Option Nat) × Bytes)
  | 42 :: s => some ((0, none), s)
  | 43 :: s => some ((1, none), s)
  | 63 :: s => some ((0, some 1), s)
  | 123 :: s => bounds? s
  | _ => none

def quantified? (e : Expr) (s : Bytes) : Option (Expr × Bytes) :=
  match quantifier? s with
  | none => some (e, s)
  | some ((least, most), rest) =>
    let (greedy, rest) := match rest with
      | 63 :: rest => (false, rest)
      | rest => (true, rest)
    if most.any (· < least) ∨ (quantifier? rest).isSome then none
    else some (.repeated least most greedy e, rest)

mutual

def alternatives? : Nat → Nat → Bytes → Option (Expr × Nat × Bytes)
  | 0, _, _ => none
  | fuel + 1, n, s => do
    let (e, n, s) ← sequence? fuel n s
    match s with
    | 124 :: s =>
      let (f, n, s) ← alternatives? fuel n s
      some (.alt e f, n, s)
    | s => some (e, n, s)

def sequence? : Nat → Nat → Bytes → Option (Expr × Nat × Bytes)
  | 0, _, _ => none
  | fuel + 1, n, s =>
    match s with
    | [] => some (.empty, n, [])
    | 124 :: rest => some (.empty, n, 124 :: rest)
    | 41 :: rest => some (.empty, n, 41 :: rest)
    | s => do
      let (e, n, s) ← atom? fuel n s
      let (e, s) ← quantified? e s
      let (f, n, s) ← sequence? fuel n s
      some (.seq e f, n, s)

def atom? : Nat → Nat → Bytes → Option (Expr × Nat × Bytes)
  | 0, _, _ => none
  | fuel + 1, n, s =>
    match s with
    | 40 :: 63 :: 58 :: s => do
      match ← alternatives? fuel n s with
      | (e, n, 41 :: s) => some (e, n, s)
      | _ => none
    | 40 :: 63 :: _ => none
    | 40 :: s => do
      match ← alternatives? fuel (n + 1) s with
      | (e, m, 41 :: s) => some (.group (n + 1) e, m, s)
      | _ => none
    | 91 :: s => (class? s).map fun (e, s) => (e, n, s)
    | 92 :: s => (escapeExpr? s).map fun (e, s) => (e, n, s)
    | 46 :: s => some (.set .any, n, s)
    | 94 :: s => some (.textStart, n, s)
    | 36 :: s => some (.textEnd, n, s)
    | b :: s => if (quantifier? (b :: s)).isSome then none else some (.set (.single b), n, s)
    | [] => none

end

def expression? (s : Bytes) : Option (Expr × Nat) :=
  match alternatives? (3 * s.length + 3) 0 s with
  | some (e, n, []) => some (e, n)
  | _ => none

end Parser

end LoadGenerator.Pattern
