import LoadGenerator.Text.Bytes

namespace LoadGenerator

abbrev SortedMap (κ α : Type) := List (κ × α)

abbrev NameMap (α : Type) := SortedMap Bytes α

namespace SortedMap

variable {κ α : Type} [DecidableEq κ] [LT κ] [DecidableLT κ]

def get? (m : SortedMap κ α) (key : κ) : Option α := List.lookup key m

def contains (m : SortedMap κ α) (key : κ) : Bool := (m.get? key).isSome

def insert : SortedMap κ α → κ → α → SortedMap κ α
  | [], key, v => [(key, v)]
  | (k, w) :: m, key, v =>
    if key = k then (key, v) :: m
    else if key < k then (key, v) :: (k, w) :: m
    else (k, w) :: insert m key v

def erase (m : SortedMap κ α) (key : κ) : SortedMap κ α := m.filter fun (k, _) => k ≠ key

def ofList (pairs : List (κ × α)) : SortedMap κ α :=
  pairs.foldl (fun m (key, v) => insert m key v) []

/-- Change the value of `key` by `f`, which begins with `start` where there is none. -/
def alter (m : SortedMap κ α) (key : κ) (start : α) (f : α → α) : SortedMap κ α :=
  insert m key (f ((m.get? key).getD start))

end SortedMap

end LoadGenerator
