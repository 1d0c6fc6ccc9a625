import LoadGenerator.Json.Basic
import LoadGenerator.Text.Numeral
import LoadGenerator.Text.Utf8

namespace LoadGenerator.Json

namespace Parser

def isSpace (b : UInt8) : Bool := b == 32 || b == 9 || b == 10 || b == 13

def blockEnd? : Bytes → Option Bytes
  | 42 :: 47 :: s => some s
  | _ :: s => blockEnd? s
  | [] => none

def skip? (comments : Bool) : Nat → Bytes → Option Bytes
  | 0, s => some s
  | fuel + 1, s =>
    match s.dropWhile isSpace with
    | 47 :: rest =>
      if comments then
        match rest with
        | 47 :: line => skip? comments fuel (line.dropWhile fun b => b != 10 && b != 13)
        | 42 :: block => (blockEnd? block).bind (skip? comments fuel)
        | _ => none
      else some (47 :: rest)
    | rest => some rest

def codeUnit? : Bytes → Option (Nat × Bytes)
  | a :: b :: c :: d :: s => do
    let a ← Numeral.hexDigit? a
    let b ← Numeral.hexDigit? b
    let c ← Numeral.hexDigit? c
    let d ← Numeral.hexDigit? d
    some (((a * 16 + b) * 16 + c) * 16 + d, s)
  | _ => none

def encode (code : Nat) : Bytes := String.utf8EncodeChar (Char.ofNat code)

def unicodeEscape? (s : Bytes) : Option (Bytes × Bytes) := do
  let (high, s) ← codeUnit? s
  if 0xD800 ≤ high ∧ high < 0xDC00 then
    match s with
    | 92 :: 117 :: s =>
      let (low, s) ← codeUnit? s
      if 0xDC00 ≤ low ∧ low < 0xE000 then
        some (encode (0x10000 + (high - 0xD800) * 0x400 + (low - 0xDC00)), s)
      else none
    | _ => none
  else if 0xDC00 ≤ high ∧ high < 0xE000 then none
  else some (encode high, s)

def escaped? (b : UInt8) : Option UInt8 :=
  match b with
  | 34 => some 34
  | 92 => some 92
  | 47 => some 47
  | 98 => some 8
  | 102 => some 12
  | 110 => some 10
  | 114 => some 13
  | 116 => some 9
  | _ => none

def stringChar? : Bytes → Option (Bytes × Bytes)
  | 92 :: 117 :: s => unicodeEscape? s
  | 92 :: b :: s => (escaped? b).map fun c => ([c], s)
  | b :: s => if b < 32 ∨ b = 92 then none else Utf8.char? (b :: s)
  | [] => none

def stringBody? : Nat → Bytes → Option (Bytes × Bytes)
  | _, 34 :: s => some ([], s)
  | 0, _ => none
  | fuel + 1, s => do
    let (c, s) ← stringChar? s
    let (body, s) ← stringBody? fuel s
    some (c ++ body, s)

def digits? (s : Bytes) : Option (Bytes × Bytes) :=
  let digits := s.takeWhile Bytes.isDigit
  if digits.isEmpty then none else some (digits, s.dropWhile Bytes.isDigit)

def wholePart? : Bytes → Option (Bytes × Bytes)
  | 48 :: s => some ([48], s)
  | s => digits? s

def fraction? : Bytes → Option (Bytes × Bytes)
  | 46 :: s => digits? s
  | s => some ([], s)

def exponentValue? (s : Bytes) : Option (Int × Bytes) :=
  match s with
  | 43 :: s => (digits? s).map fun (d, s) => ((Numeral.value d : Int), s)
  | 45 :: s => (digits? s).map fun (d, s) => (-(Numeral.value d : Int), s)
  | s => (digits? s).map fun (d, s) => ((Numeral.value d : Int), s)

def exponent? : Bytes → Option (Option Int × Bytes)
  | b :: s =>
    if b = 101 ∨ b = 69 then (exponentValue? s).map fun (x, s) => (some x, s)
    else some (none, b :: s)
  | [] => some (none, [])

/-- A whole number that fits in 64 bits stays one; all others must not be past the largest
double. -/
def ofParts? (negative : Bool) (whole fraction : Bytes) (exponent : Option Int) : Option Json :=
  let n := Binary64.signed negative (Numeral.value whole)
  if fraction.isEmpty ∧ exponent.isNone ∧ -(Word.half : Int) ≤ n ∧ n < Word.count then
    some (.int n)
  else
    let d : Decimal :=
      ⟨negative, Numeral.value (whole ++ fraction), exponent.getD 0 - fraction.length⟩
    if d.toFloat?.isSome then some (.real d) else none

def unsigned? (negative : Bool) (s : Bytes) : Option (Json × Bytes) := do
  let (whole, s) ← wholePart? s
  let (fraction, s) ← fraction? s
  let (exponent, s) ← exponent? s
  let n ← ofParts? negative whole fraction exponent
  some (n, s)

def number? : Bytes → Option (Json × Bytes)
  | 45 :: s => unsigned? true s
  | s => unsigned? false s

def word? (word : String) (v : Json) (s : Bytes) : Option (Json × Bytes) :=
  (List.isPrefixOf? (utf8 word) s).map (v, ·)

mutual

def value? (comments : Bool) : Nat → Bytes → Option (Json × Bytes)
  | 0, _ => none
  | fuel + 1, s =>
    match s with
    | 123 :: s => do
      match ← skip? comments s.length s with
      | 125 :: s => some (.object [], s)
      | s =>
        let (members, s) ← members? comments fuel s
        some (ofMembers members, s)
    | 91 :: s => do
      match ← skip? comments s.length s with
      | 93 :: s => some (.array [], s)
      | s =>
        let (items, s) ← items? comments fuel s
        some (.array items, s)
    | 34 :: s => (stringBody? s.length s).map fun (t, s) => (.string t, s)
    | 116 :: _ => word? "true" (.bool true) s
    | 102 :: _ => word? "false" (.bool false) s
    | 110 :: _ => word? "null" .null s
    | _ => number? s

def items? (comments : Bool) : Nat → Bytes → Option (List Json × Bytes)
  | 0, _ => none
  | fuel + 1, s => do
    let (v, s) ← value? comments fuel s
    match ← skip? comments s.length s with
    | 93 :: s => some ([v], s)
    | 44 :: s =>
      let s ← skip? comments s.length s
      let (vs, s) ← items? comments fuel s
      some (v :: vs, s)
    | _ => none

def members? (comments : Bool) : Nat → Bytes → Option (List (Bytes × Json) × Bytes)
  | 0, _ => none
  | fuel + 1, s =>
    match s with
    | 34 :: s => do
      let (name, s) ← stringBody? s.length s
      match ← skip? comments s.length s with
      | 58 :: s =>
        let s ← skip? comments s.length s
        let (v, s) ← value? comments fuel s
        match ← skip? comments s.length s with
        | 125 :: s => some ([(name, v)], s)
        | 44 :: s =>
          let s ← skip? comments s.length s
          let (ms, s) ← members? comments fuel s
          some ((name, v) :: ms, s)
        | _ => none
      | _ => none
    | _ => none

end

def byteOrderMark : Bytes := [0xEF, 0xBB, 0xBF]

/-- The text proper: without a byte-order mark in front, and up to the first NUL. -/
def content (s : Bytes) : Bytes :=
  ((List.isPrefixOf? byteOrderMark s).getD s).takeWhile (· != 0)

def document? (comments : Bool) (s : Bytes) : Option Json := do
  let s := content s
  let s ← skip? comments s.length s
  let (v, s) ← value? comments (2 * s.length + 2) s
  match ← skip? comments s.length s with
  | [] => some v
  | _ => none

end Parser

def parse? (s : Bytes) : Option Json := Parser.document? false s

def parseWithComments? (s : Bytes) : Option Json := Parser.document? true s

end LoadGenerator.Json
