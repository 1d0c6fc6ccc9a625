import LoadGenerator.Data.SortedMap
import LoadGenerator.Number.Clock

namespace LoadGenerator

abbrev Variables := NameMap Bytes

namespace Variables

def load (vars : Variables) (row : NameMap Bytes) : Variables :=
  row.foldl (fun vars (name, v) => vars.insert name v) vars

def isName (s : Bytes) : Bool := !s.isEmpty && s.all Bytes.isWord

def timestamp : Bytes := utf8 "timestamp"

/-- The value of a placeholder; an unbound `timestamp` is the calendar clock in milliseconds. -/
def value? (vars : Variables) (calendar : Int) (name : Bytes) : Option Bytes :=
  (SortedMap.get? vars name).or
    (if name = timestamp then some (Text.ofInt (Clock.toMillis calendar)) else none)

/-- Replace every `${name}` whose name has a value; all else is copied. -/
def fill (value? : Bytes → Option Bytes) : Bytes → Bytes
  | [] => []
  | [b] => [b]
  | b :: c :: s =>
    if b = 36 ∧ c = 123 then
      match h : Bytes.cutByte? 125 s with
      | none => b :: c :: s
      | some (name, rest) =>
        if isName name then
          (value? name).getD (b :: c :: name ++ [125]) ++ fill value? rest
        else b :: c :: fill value? s
    else b :: fill value? (c :: s)
termination_by s => s.length
decreasing_by
  · have := Bytes.length_of_cutByte? h
    grind
  · exact Nat.lt_succ_of_lt (Nat.lt_succ_self _)
  · exact Nat.lt_succ_self _

def substitute (vars : Variables) (calendar : Int) (s : Bytes) : Bytes :=
  fill (vars.value? calendar) s

end Variables

end LoadGenerator
