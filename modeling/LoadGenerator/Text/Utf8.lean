import LoadGenerator.Text.Bytes

namespace LoadGenerator.Utf8

def between (low high b : UInt8) : Bool := low ≤ b && b ≤ high

def isTail (b : UInt8) : Bool := between 0x80 0xBF b

/-- Whether `b` may be the second byte after the first byte `a` of a longer sequence: no overlong
form, no surrogate, nothing past the last code point. -/
def isSecond (a b : UInt8) : Bool :=
  if a = 0xE0 then between 0xA0 0xBF b
  else if a = 0xED then between 0x80 0x9F b
  else if a = 0xF0 then between 0x90 0xBF b
  else if a = 0xF4 then between 0x80 0x8F b
  else isTail b

def length? (a : UInt8) : Option Nat :=
  if a < 0x80 then some 1
  else if between 0xC2 0xDF a then some 2
  else if between 0xE0 0xEF a then some 3
  else if between 0xF0 0xF4 a then some 4
  else none

def char? : Bytes → Option (Bytes × Bytes)
  | [] => none
  | a :: s =>
    match length? a with
    | none => none
    | some 1 => some ([a], s)
    | some n =>
      let tail := s.take (n - 1)
      if tail.length = n - 1 ∧ tail.all isTail ∧ (tail.head?.map (isSecond a)).getD false then
        some (a :: tail, s.drop (n - 1))
      else none

def valid (s : Bytes) : Bool :=
  let rec go : Nat → Bytes → Bool
    | _, [] => true
    | 0, _ => false
    | fuel + 1, s => match char? s with
      | none => false
      | some (_, rest) => go fuel rest
  go s.length s

end LoadGenerator.Utf8
