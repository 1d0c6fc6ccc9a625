import LoadGenerator.Json.Basic

namespace LoadGenerator.Json

namespace Printer

def hexDigit (n : Nat) : UInt8 := UInt8.ofNat (if n < 10 then 48 + n else 87 + n)

def escape (b : UInt8) : Bytes :=
  if b = 34 then utf8 "\\\""
  else if b = 92 then utf8 "\\\\"
  else if b = 8 then utf8 "\\b"
  else if b = 12 then utf8 "\\f"
  else if b = 10 then utf8 "\\n"
  else if b = 13 then utf8 "\\r"
  else if b = 9 then utf8 "\\t"
  else if b < 32 then utf8 "\\u00" ++ [hexDigit (b.toNat / 16), hexDigit (b.toNat % 16)]
  else [b]

def string (s : Bytes) : Bytes := utf8 "\"" ++ s.flatMap escape ++ utf8 "\""

/-- The digits of a number whose point stands after the first `point` of them: positional from
`0.0001` up to fifteen digits before the point, else with a power of ten. -/
def layout (digits : Bytes) (point : Int) : Bytes :=
  let zeros (n : Int) := List.replicate n.toNat 48
  if digits.length ≤ point ∧ point ≤ 15 then
    digits ++ zeros (point - digits.length) ++ utf8 ".0"
  else if 0 < point ∧ point ≤ 15 then Text.pointAfter point.toNat digits
  else if -4 < point ∧ point ≤ 0 then utf8 "0." ++ zeros (-point) ++ digits
  else Text.pointAfter 1 digits ++ Text.exponent (point - 1)

def real (d : Decimal) : Bytes :=
  match d.toFloat?.bind Decimal.shortest with
  | none => utf8 "null"
  | some d =>
    Text.sign d.negative ++
      (if d.coefficient = 0 then utf8 "0.0"
        else
          let digits := Text.ofNat d.coefficient
          layout digits (d.exponent + digits.length))

def leaf : Json → Bytes
  | .null => utf8 "null"
  | .bool b => utf8 (if b then "true" else "false")
  | .int n => Text.ofInt n
  | .real d => real d
  | .string s => string s
  | _ => []

mutual

def compact : Json → Bytes
  | .array items => utf8 "[" ++ compactItems items ++ utf8 "]"
  | .object members => utf8 "\x7b" ++ compactMembers members ++ utf8 "\x7d"
  | v => leaf v

def compactItems : List Json → Bytes
  | [] => []
  | [v] => compact v
  | v :: vs => compact v ++ utf8 "," ++ compactItems vs

def compactMembers : List (Bytes × Json) → Bytes
  | [] => []
  | [(name, v)] => string name ++ utf8 ":" ++ compact v
  | (name, v) :: ms => string name ++ utf8 ":" ++ compact v ++ utf8 "," ++ compactMembers ms

end

def newLine (depth : Nat) : Bytes := 10 :: List.replicate (2 * depth) 32

mutual

def indentedAt (depth : Nat) : Json → Bytes
  | .array [] => utf8 "[]"
  | .object [] => utf8 "\x7b\x7d"
  | .array items => utf8 "[" ++ indentedItems (depth + 1) items ++ newLine depth ++ utf8 "]"
  | .object members =>
    utf8 "\x7b" ++ indentedMembers (depth + 1) members ++ newLine depth ++ utf8 "\x7d"
  | v => leaf v

def indentedItems (depth : Nat) : List Json → Bytes
  | [] => []
  | [v] => newLine depth ++ indentedAt depth v
  | v :: vs => newLine depth ++ indentedAt depth v ++ utf8 "," ++ indentedItems depth vs

def indentedMembers (depth : Nat) : List (Bytes × Json) → Bytes
  | [] => []
  | [(name, v)] => newLine depth ++ string name ++ utf8 ": " ++ indentedAt depth v
  | (name, v) :: ms =>
    newLine depth ++ string name ++ utf8 ": " ++ indentedAt depth v ++ utf8 "," ++
      indentedMembers depth ms

end

end Printer

def compact (v : Json) : Bytes := Printer.compact v

def indented (v : Json) : Bytes := Printer.indentedAt 0 v

end LoadGenerator.Json
