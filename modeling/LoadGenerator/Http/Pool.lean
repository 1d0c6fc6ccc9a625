import LoadGenerator.Number.Clock
import LoadGenerator.Text.Bytes

namespace LoadGenerator.Http

structure PoolKey where
  host : Bytes
  owner : Nat
  deriving DecidableEq, Repr

structure Idle (σ : Type) where
  key : PoolKey
  connection : σ
  since : Int

structure Pool (σ : Type) where
  maxIdle : Nat
  idleTimeoutMs : Int
  idle : List (Idle σ)

namespace Pool

variable {σ : Type}

def usualMaxIdle : Nat := 32

def usualTimeoutMs : Int := 90000

def create (maxIdle : Nat) (idleTimeoutMs : Int) : Pool σ := ⟨maxIdle, idleTimeoutMs, []⟩

def isStale (p : Pool σ) (now : Int) (e : Idle σ) : Bool :=
  Clock.ofMillis p.idleTimeoutMs ≤ now - e.since

def takeStale (p : Pool σ) (now : Int) (key : PoolKey) : List (Idle σ) × Pool σ :=
  let (stale, idle) := p.idle.partition fun e => e.key = key && p.isStale now e
  (stale, { p with idle := idle })

def takeLast? (key : PoolKey) (idle : List (Idle σ)) : Option (Idle σ × List (Idle σ)) :=
  let newest := idle.reverse
  (newest.find? (·.key = key)).map fun e => (e, (newest.eraseP (·.key = key)).reverse)

def makeRoom (p : Pool σ) (key : PoolKey) : Option (Idle σ) × Pool σ :=
  if p.maxIdle ≤ p.idle.countP (·.key = key) then
    (p.idle.find? (·.key = key), { p with idle := p.idle.eraseP (·.key = key) })
  else (none, p)

end Pool

structure Turnover (σ : Type) where
  handed : Option σ
  closed : List σ
  pool : Pool σ

namespace Pool

variable {σ : Type}

/-- The connection of a key that was released last, if one is left that has not waited too long. -/
def acquire (p : Pool σ) (now : Int) (key : PoolKey) : Turnover σ :=
  let (stale, p) := p.takeStale now key
  let closed := stale.map (·.connection)
  match takeLast? key p.idle with
  | some (e, idle) => ⟨some e.connection, closed, { p with idle := idle }⟩
  | none => ⟨none, closed, p⟩

def release (p : Pool σ) (now : Int) (key : PoolKey) : Option σ → Turnover σ
  | none => ⟨none, [], p⟩
  | some connection =>
    if p.maxIdle = 0 then ⟨none, [connection], p⟩
    else
      let (stale, p) := p.takeStale now key
      let (oldest, p) := p.makeRoom key
      ⟨none, (stale ++ oldest.toList).map (·.connection),
        { p with idle := p.idle ++ [⟨key, connection, now⟩] }⟩

def clear (p : Pool σ) : Turnover σ :=
  ⟨none, p.idle.map (·.connection), { p with idle := [] }⟩

end Pool

end LoadGenerator.Http
