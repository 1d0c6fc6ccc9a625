import LoadGenerator.Number.Decimal
import LoadGenerator.Data.SortedMap

namespace LoadGenerator

/-- A value. The members of an object stand in the byte order of their names. -/
inductive Json where
  | null
  | bool (b : Bool)
  | int (n : Int)
  | real (d : Decimal)
  | string (s : Bytes)
  | array (items : List Json)
  | object (members : List (Bytes × Json))
  deriving Inhabited

namespace Json

def ofMembers (members : List (Bytes × Json)) : Json := .object (SortedMap.ofList members)

def ofNat (n : Nat) : Json := .int n

def ofFloat (x : Float) : Json := ((Decimal.shortest x).map Json.real).getD .null

def isNull : Json → Bool
  | .null => true
  | _ => false

def member? (name : Bytes) : Json → Option Json
  | .object members => SortedMap.get? members name
  | _ => none

def item? (index : Nat) : Json → Option Json
  | .array items => items[index]?
  | _ => none

def number? : Json → Option Decimal
  | .int n => some (Decimal.ofInt n)
  | .real d => some d
  | _ => none

end Json

end LoadGenerator
