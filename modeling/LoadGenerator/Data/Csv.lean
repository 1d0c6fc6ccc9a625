import LoadGenerator.Text.Bytes

namespace LoadGenerator.Csv

abbrev Record := List Bytes

/-- What has been read so far. The records, the fields of the open record and the bytes of the open
field are kept with the newest first. -/
structure Reader where
  records : List Record
  record : Record
  field : Bytes
  quoted : Bool
  line : Nat
  deriving DecidableEq, Repr

namespace Reader

def fresh : Reader := ⟨[], [], [], false, 1⟩

def push (r : Reader) (b : UInt8) : Reader := { r with field := b :: r.field }

def endField (r : Reader) : Reader :=
  { r with record := r.field.reverse :: r.record, field := [], quoted := false }

/-- A record of one empty field is a blank line and is not kept. -/
def keep (record : Record) (records : List Record) : List Record :=
  if record = [[]] then records else record :: records

def endRecord (r : Reader) : Reader :=
  let r := r.endField
  { r with records := keep r.record.reverse r.records, record := [] }

def newLine (r : Reader) : Reader := { r with line := r.line + 1 }

def finish (r : Reader) : List Record :=
  let r := if r.field.isEmpty && !r.quoted && r.record.isEmpty then r else r.endRecord
  r.records.reverse

end Reader

mutual

/-- Read on outside quotes; an error is the line of a quote that is never closed. -/
def plain (r : Reader) : Bytes → Except Nat Reader
  | [] => .ok r
  | 13 :: 10 :: s => plain r.endRecord.newLine s
  | b :: s =>
    if b = 34 then
      if r.field.isEmpty && !r.quoted then quoted { r with quoted := true } r.line s
      else plain (r.push b) s
    else if b = 44 then plain r.endField s
    else if b = 13 ∨ b = 10 then plain r.endRecord.newLine s
    else plain (r.push b) s

def quoted (r : Reader) (opened : Nat) : Bytes → Except Nat Reader
  | [] => .error opened
  | 34 :: 34 :: s => quoted (r.push 34) opened s
  | b :: s =>
    if b = 34 then plain r s
    else if b = 10 then quoted (r.push b).newLine opened s
    else quoted (r.push b) opened s

end

def parse (s : Bytes) : Except Nat (List Record) := (plain .fresh s).map Reader.finish

end LoadGenerator.Csv
