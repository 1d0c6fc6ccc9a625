import LoadGenerator.Number.Decimal
import LoadGenerator.Text.Numeral

namespace LoadGenerator

inductive Literal where
  | number (d : Decimal)
  | infinity (negative : Bool)
  | notNumber (negative : Bool)
  deriving DecidableEq, Repr

namespace Literal

def digits (s : Bytes) : Bytes × Bytes := (s.takeWhile Bytes.isDigit, s.dropWhile Bytes.isDigit)

def fraction : Bytes → Bytes × Bytes
  | 46 :: s => digits s
  | s => ([], s)

def signed : Bytes → Bool × Bytes
  | 45 :: s => (true, s)
  | 43 :: s => (false, s)
  | s => (false, s)

def exponent (s : Bytes) : Int × Bytes :=
  match s with
  | b :: rest =>
    if b = 101 ∨ b = 69 then
      let (negative, rest) := signed rest
      let (digits, rest) := digits rest
      if digits.isEmpty then (0, s) else (Binary64.signed negative (Numeral.value digits), rest)
    else (0, s)
  | [] => (0, [])

def number? (negative : Bool) (s : Bytes) : Option (Literal × Bytes) :=
  let (whole, s) := digits s
  let (fraction, s) := fraction s
  let all := whole ++ fraction
  if all.isEmpty then none
  else
    let (x, s) := exponent s
    some (.number ⟨negative, Numeral.value all, x - fraction.length⟩, s)

def word? (word : String) (s : Bytes) : Option Bytes :=
  let w := utf8 word
  if Bytes.sameText (s.take w.length) w then some (s.drop w.length) else none

/-- What may follow the word for no number: word characters in parentheses. -/
def payload (s : Bytes) : Bytes :=
  match s with
  | 40 :: rest =>
    match rest.dropWhile Bytes.isWord with
    | 41 :: rest => rest
    | _ => s
  | _ => s

def unsigned? (negative : Bool) (s : Bytes) : Option (Literal × Bytes) :=
  match word? "infinity" s, word? "inf" s, word? "nan" s with
  | some rest, _, _ => some (.infinity negative, rest)
  | none, some rest, _ => some (.infinity negative, rest)
  | none, none, some rest => some (.notNumber negative, payload rest)
  | none, none, none => number? negative s

/-- The literal at the front of a text; only a minus sign may stand before it. -/
def read? : Bytes → Option (Literal × Bytes)
  | 45 :: s => unsigned? true s
  | s => unsigned? false s

def whole? (s : Bytes) : Option Literal :=
  match read? s with
  | some (l, []) => some l
  | _ => none

end Literal

end LoadGenerator
