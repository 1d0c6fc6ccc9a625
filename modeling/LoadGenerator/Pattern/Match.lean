import LoadGenerator.Pattern.Parser

namespace LoadGenerator

namespace Pattern

structure Place where
  before : Option UInt8
  rest : Bytes
  offset : Nat
  groups : List (Nat × Bytes)

namespace Place

def advance (p : Place) (b : UInt8) (rest : Bytes) : Place :=
  { p with before := some b, rest := rest, offset := p.offset + 1 }

def atWordBoundary (p : Place) : Bool :=
  (p.before.map Bytes.isWord).getD false != (p.rest.head?.map Bytes.isWord).getD false

def capture (start p : Place) (number : Nat) : Place :=
  { p with
    groups := (number, start.rest.take (p.offset - start.offset)) ::
      p.groups.filter fun (n, _) => n ≠ number }

end Place

/-- What remains to be matched after an expression. -/
abbrev Continuation := Place → Option Place

/-- Repeat `body`, of which `least` more are owed and `most` more allowed, and then go on. A
repetition that takes nothing is the last. -/
def repeatFrom (body : Continuation → Continuation) (greedy : Bool) (go : Continuation) :
    Nat → Nat → Option Nat → Continuation
  | 0, _, _, p => go p
  | fuel + 1, least, most, p =>
    let again (_ : Unit) : Option Place :=
      if most = some 0 then none
      else body (fun q =>
        if q.offset = p.offset ∧ least = 0 then go q
        else repeatFrom body greedy go fuel (least - 1) (most.map (· - 1)) q) p
    if 0 < least then again ()
    else if greedy then (again ()).or (go p)
    else (go p).or (again ())

def Expr.run : Expr → Continuation → Continuation
  | .empty, go, p => go p
  | .set s, go, p =>
    match p.rest with
    | b :: rest => if s.contains b then go (p.advance b rest) else none
    | [] => none
  | .textStart, go, p => if p.before.isNone then go p else none
  | .textEnd, go, p => if p.rest.isEmpty then go p else none
  | .wordBoundary negated, go, p => if p.atWordBoundary != negated then go p else none
  | .group number e, go, p => e.run (fun q => go (p.capture q number)) p
  | .seq e f, go, p => e.run (f.run go) p
  | .alt e f, go, p => (e.run go p).or (f.run go p)
  | .repeated least most greedy e, go, p =>
    repeatFrom e.run greedy go (least + p.rest.length + 1) least most p

def Expr.search (e : Expr) : Option UInt8 → Bytes → Option (Place × Place)
  | before, s =>
    let start : Place := ⟨before, s, 0, []⟩
    match e.run some start, s with
    | some stop, _ => some (start, stop)
    | none, b :: rest => search e (some b) rest
    | none, [] => none
termination_by _ s => s.length

/-- The matched text and then the text of each group, empty for one that took no part. -/
def Expr.groups (e : Expr) (count : Nat) (s : Bytes) : Option (List Bytes) :=
  (e.search none s).map fun (start, stop) =>
    start.rest.take stop.offset ::
      (List.range count).map fun i => (stop.groups.lookup (i + 1)).getD []

end Pattern

structure Pattern where
  source : Bytes
  compiled : Option (Pattern.Expr × Nat)
  deriving DecidableEq, Repr

namespace Pattern

def blank : Pattern := ⟨[], none⟩

def invalid (source : Bytes) : Bytes := source ++ utf8 ": invalid pattern"

def notCompiled : Bytes := utf8 "pattern not compiled"

def compile (source : Bytes) : Except Bytes Pattern :=
  match Parser.expression? source with
  | some e => .ok ⟨source, some e⟩
  | none => .error (invalid source)

def aborted (why : Bytes) : Bytes := utf8 "match aborted: " ++ why

/-- Whatever looks in a text for the first match of an expression with so many groups. It gives the
texts of the groups, if there is a match, or gives up and says why. -/
abbrev Matcher := Expr → Nat → Bytes → Except Bytes (Option (List Bytes))

def backtrack : Matcher := fun e count s => .ok (e.groups count s)

def searchBy (find : Matcher) (p : Pattern) (s : Bytes) : Except Bytes (List Bytes) :=
  match p.compiled with
  | none => .error notCompiled
  | some (e, count) =>
    match find e count s with
    | .ok found => .ok (found.getD [])
    | .error why => .error (aborted why)

def search (p : Pattern) (s : Bytes) : Except Bytes (List Bytes) := p.searchBy backtrack s

end Pattern

end LoadGenerator
