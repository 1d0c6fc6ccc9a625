import LoadGenerator.ConfigError
import LoadGenerator.Json.Basic
import LoadGenerator.Scalar.Basic

namespace LoadGenerator.Duration

variable {α : Type} [Scalar α]

inductive Failure where
  | empty
  | invalid (text : Bytes)
  | negative
  | notDuration
  deriving DecidableEq, Repr

def Failure.message : Failure → Bytes
  | .empty => utf8 "is empty"
  | .invalid text =>
    utf8 "invalid duration '" ++ text ++ utf8 "' (use e.g. 30, 30s, 500ms, 10m, 2h, 1d)"
  | .negative => utf8 "must be non-negative"
  | .notDuration => utf8 "must be a number of seconds or a duration string"

def Failure.inField (field : Bytes) (e : Failure) : ConfigError := ⟨field, e.message⟩

inductive Unit where
  | milliseconds
  | seconds
  | minutes
  | hours
  | days
  deriving DecidableEq, Repr

def Unit.scale : Unit → α
  | .milliseconds => Scalar.one / Scalar.ofInt 1000
  | .seconds => Scalar.one
  | .minutes => Scalar.ofInt 60
  | .hours => Scalar.ofInt 3600
  | .days => Scalar.ofInt 86400

/-- The number and the unit of a text; without a unit it counts seconds. -/
def splitUnit (s : Bytes) : Bytes × Unit :=
  match s.reverse with
  | 115 :: 109 :: r => (r.reverse, .milliseconds)
  | 115 :: r => (r.reverse, .seconds)
  | 109 :: r => (r.reverse, .minutes)
  | 104 :: r => (r.reverse, .hours)
  | 100 :: r => (r.reverse, .days)
  | r => (r.reverse, .seconds)

def parse (text : Bytes) : Except Failure α :=
  if text.trim.isEmpty then .error .empty
  else
    let (number, unit) := splitUnit text.trim
    match (Literal.whole? number).bind Scalar.ofLiteral with
    | none => .error (.invalid text)
    | some (x : α) => if x < Scalar.zero then .error .negative else .ok (x * unit.scale)

def ofJson (v : Json) : Except Failure α :=
  match v with
  | .string text => parse text
  | v =>
    match v.number?.bind Scalar.ofDecimal with
    | none => .error .notDuration
    | some (x : α) => if Scalar.isNonnegative x then .ok x else .error .negative

def toMillis (seconds : α) : Int := Scalar.round (seconds * Scalar.ofInt 1000)

def toNanos (seconds : α) : Int := Scalar.truncate (seconds * Scalar.ofInt 1000000000)

def ofNanos (ns : Int) : α := Scalar.ofInt ns / Scalar.ofInt 1000000000

end LoadGenerator.Duration
