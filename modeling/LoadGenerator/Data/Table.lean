import LoadGenerator.Data.Csv
import LoadGenerator.Data.SortedMap
import LoadGenerator.Number.Word

namespace LoadGenerator

abbrev Row := NameMap Bytes

namespace Row

/-- The fields of a record under the headers; of two equal headers the first counts, and a missing
field has no value. -/
def ofRecord (headers : List Bytes) (record : Csv.Record) : Row :=
  (headers.zip record).foldl
    (fun row (name, v) => if row.contains name then row else row.insert name v) []

end Row

structure Table where
  headers : List Bytes
  rows : List Row
  nonempty : rows ≠ []

namespace Table

inductive Failure where
  | unreadable (path : Bytes)
  | noHeaders
  | noRows
  | openQuote (line : Nat)
  deriving DecidableEq, Repr

def Failure.message : Failure → Bytes
  | .unreadable path => utf8 "cannot open " ++ path
  | .noHeaders => utf8 "input has no header row"
  | .noRows => utf8 "input has a header row but no data rows"
  | .openQuote _ => utf8 "quoted field is never closed"

def Failure.line : Failure → Nat
  | .openQuote line => line
  | _ => 0

def byteOrderMark : Bytes := [0xEF, 0xBB, 0xBF]

/-- A header may begin with a byte-order mark, which does not count. -/
def headerName (h : Bytes) : Bytes := (List.isPrefixOf? byteOrderMark h).getD h

def ofRecords : List Csv.Record → Except Failure Table
  | [] => .error .noHeaders
  | first :: records =>
    let headers := first.map headerName
    let rows := records.map (Row.ofRecord headers)
    if h : rows = [] then .error .noRows else .ok ⟨headers, rows, h⟩

def parse (s : Bytes) : Except Failure Table :=
  match Csv.parse s with
  | .error line => .error (.openQuote line)
  | .ok records => ofRecords records

theorem length_rows_pos (t : Table) : 0 < t.rows.length :=
  List.length_pos_iff.mpr t.nonempty

/-- The row that is dealt after `n` others, round and round. They are counted in a word. -/
def deal (t : Table) (n : Nat) : Row :=
  t.rows.get ⟨n % Word.count % t.rows.length, Nat.mod_lt _ t.length_rows_pos⟩

end Table

/-- A table and how many of its rows have been dealt since it was last rewound. -/
structure Dealer where
  table : Table
  dealt : Nat

namespace Dealer

def ofTable (t : Table) : Dealer := ⟨t, 0⟩

def next (d : Dealer) : Row × Dealer := (d.table.deal d.dealt, { d with dealt := d.dealt + 1 })

def rewind (d : Dealer) : Dealer := { d with dealt := 0 }

end Dealer

/-- Dealers in numbered places; nobody stands where a dealer has been taken away. -/
abbrev Dealers := Nat → Option Dealer

namespace Dealers

def ofTable (t : Table) : Dealers := fun p => if p = 0 then some (.ofTable t) else none

def put (s : Dealers) (place : Nat) (d : Dealer) : Dealers :=
  fun p => if p = place then some d else s p

/-- Take a dealer to another place, with all that it has dealt. Whoever stands there makes room. -/
def move (s : Dealers) (source target : Nat) : Dealers :=
  if source = target then s
  else fun p => if p = target then s source else if p = source then none else s p

inductive Request where
  | next (place caller : Nat)
  | rewind (place : Nat)
  | move (source target : Nat)
  deriving DecidableEq, Repr

def act (s : Dealers) : Request → Option (Option Row × Dealers)
  | .next place _ => (s place).map fun d => (some d.next.1, s.put place d.next.2)
  | .rewind place => (s place).map fun d => (none, s.put place d.rewind)
  | .move source target => (s source).map fun _ => (none, s.move source target)

end Dealers

end LoadGenerator
