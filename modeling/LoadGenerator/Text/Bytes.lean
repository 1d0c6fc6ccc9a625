
namespace LoadGenerator

abbrev Bytes := List UInt8

def utf8 (s : String) : Bytes := s.toList.flatMap String.utf8EncodeChar

namespace Bytes

def isBlank (b : UInt8) : Bool := b == 32 || b == 9

def isDigit (b : UInt8) : Bool := 48 ≤ b && b ≤ 57

def isUpper (b : UInt8) : Bool := 65 ≤ b && b ≤ 90

def isLower (b : UInt8) : Bool := 97 ≤ b && b ≤ 122

def isWord (b : UInt8) : Bool := isLower b || isUpper b || isDigit b || b == 95

def lowerByte (b : UInt8) : UInt8 := if isUpper b then b + 32 else b

def upperByte (b : UInt8) : UInt8 := if isLower b then b - 32 else b

def toLower (s : Bytes) : Bytes := s.map lowerByte

def toUpper (s : Bytes) : Bytes := s.map upperByte

def sameText (s t : Bytes) : Bool := s.toLower == t.toLower

def dropRightWhile (p : UInt8 → Bool) (s : Bytes) : Bytes := (s.reverse.dropWhile p).reverse

def trim (s : Bytes) : Bytes := dropRightWhile isBlank (s.dropWhile isBlank)

def cut? (sep : Bytes) : Bytes → Option (Bytes × Bytes)
  | [] => if sep.isEmpty then some ([], []) else none
  | b :: s =>
    if sep.isPrefixOf (b :: s) then some ([], (b :: s).drop sep.length)
    else (cut? sep s).map fun (before, after) => (b :: before, after)

def contains (s sep : Bytes) : Bool := (cut? sep s).isSome

def cutByte? (b : UInt8) : Bytes → Option (Bytes × Bytes)
  | [] => none
  | c :: s => if c == b then some ([], s) else (cutByte? b s).map fun (l, r) => (c :: l, r)

theorem length_of_cutByte? {b : UInt8} {s l r : Bytes} (h : cutByte? b s = some (l, r)) :
    l.length + r.length + 1 = s.length := by
  induction s generalizing l r with
  | nil => simp [cutByte?] at h
  | cons c s ih =>
    rw [cutByte?] at h
    split at h
    · simp at h
      simp [← h.1, ← h.2]
    · obtain ⟨⟨l', r'⟩, hs, hl⟩ := Option.map_eq_some_iff.mp h
      simp at hl
      have := ih hs
      rw [← hl.1, ← hl.2, List.length_cons, List.length_cons]
      omega

def cutLastByte? (b : UInt8) (s : Bytes) : Option (Bytes × Bytes) :=
  (cutByte? b s.reverse).map fun (r, l) => (l.reverse, r.reverse)

def splitOn (b : UInt8) : Bytes → List Bytes
  | [] => [[]]
  | c :: s =>
    if c == b then [] :: splitOn b s
    else match splitOn b s with
      | [] => [[c]]
      | piece :: pieces => (c :: piece) :: pieces

def padRight (width : Nat) (s : Bytes) : Bytes := s ++ List.replicate (width - s.length) 32

def join (sep : Bytes) (pieces : List Bytes) : Bytes := (pieces.intersperse sep).flatten

end Bytes

namespace Text

def ofNat (n : Nat) : Bytes := (Nat.toDigits 10 n).map Char.toUInt8

def ofInt : Int → Bytes
  | .ofNat n => ofNat n
  | .negSucc n => utf8 "-" ++ ofNat (n + 1)

end Text

end LoadGenerator
