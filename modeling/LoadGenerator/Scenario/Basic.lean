import LoadGenerator.Data.Table
import LoadGenerator.Pattern.Match

namespace LoadGenerator

structure RequestTemplate where
  method : Bytes
  path : Bytes
  body : Option Bytes
  headers : NameMap Bytes
  deriving DecidableEq, Repr

inductive Extractor where
  | jsonPath (path : Bytes)
  /-- The group is a number; where none is given it is the first, if the pattern has groups. -/
  | regex (pattern : Pattern) (group : Bytes)
  | header (name : Bytes)
  | cookie (name : Bytes)
  deriving DecidableEq, Repr

structure Extraction where
  name : Bytes
  extractor : Extractor
  deriving DecidableEq, Repr

inductive Assertion where
  | statusCode (expected : Nat)
  | bodyContains (text : Bytes)
  | responseTime (maxMs : Int)
  | jsonPath (path : Bytes) (expected : Option Bytes)
  | bodyMatches (pattern : Pattern)
  | headerExists (name : Bytes)
  deriving DecidableEq, Repr

inductive ThinkTime where
  | fixed (ms : Int)
  | between (minMs maxMs : Int)
  deriving DecidableEq, Repr

namespace ThinkTime

def low : ThinkTime → Int
  | .fixed ms => ms
  | .between a b => min a b

def high : ThinkTime → Int
  | .fixed ms => ms
  | .between a b => max a b

/-- The pause that a random number chooses, every length in the range alike. -/
def choose (t : ThinkTime) (random : Nat) : Int :=
  t.low + (random % ((t.high - t.low).toNat + 1) : Nat)

end ThinkTime

structure Step where
  name : Bytes
  request : RequestTemplate
  extractions : List Extraction
  assertions : List Assertion
  thinkTime : Option ThinkTime
  /-- A directive that is kept as it was written and not acted on. -/
  cache : Option Bytes
  deriving DecidableEq, Repr

structure Scenario (α : Type) where
  name : Bytes
  weight : α
  steps : List Step
  table : Option Table

end LoadGenerator
