import LoadGenerator.Number.Word
import LoadGenerator.Text.Bytes

namespace LoadGenerator.Numeral

inductive Failure where
  | missing
  | tooLarge
  deriving DecidableEq, Repr

def value (digits : Bytes) : Nat := digits.foldl (fun n b => 10 * n + (b.toNat - 48)) 0

def hexDigit? (b : UInt8) : Option Nat :=
  if Bytes.isDigit b then some (b.toNat - 48)
  else if 97 ≤ b ∧ b ≤ 102 then some (b.toNat - 87)
  else if 65 ≤ b ∧ b ≤ 70 then some (b.toNat - 55)
  else none

/-- Read a number of at most `limit`, and give back what follows its digits. -/
def read (limit : Nat) (s : Bytes) : Except Failure (Nat × Bytes) :=
  let digits := s.takeWhile Bytes.isDigit
  if digits.isEmpty then .error .missing
  else if limit < value digits then .error .tooLarge
  else .ok (value digits, s.dropWhile Bytes.isDigit)

def readSigned (bits : Nat) : Bytes → Except Failure (Int × Bytes)
  | 45 :: s => (read (1 <<< (bits - 1)) s).map fun (n, rest) => (-(n : Int), rest)
  | s => (read (1 <<< (bits - 1) - 1) s).map fun (n, rest) => ((n : Int), rest)

def whole? (limit : Nat) (s : Bytes) : Option Nat :=
  match read limit s with
  | .ok (n, []) => some n
  | _ => none

def isSpace (b : UInt8) : Bool := b == 32 || (9 ≤ b && b ≤ 13)

/-- Read a word of 64 bits after blanks and maybe a sign. A negative number wraps around. -/
def readWord (s : Bytes) : Except Failure (Nat × Bytes) :=
  match s.dropWhile isSpace with
  | 43 :: s => read Word.largest s
  | 45 :: s => (read Word.largest s).map fun (n, rest) => ((Word.count - n) % Word.count, rest)
  | s => read Word.largest s

end LoadGenerator.Numeral
