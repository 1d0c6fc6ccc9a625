import LoadGenerator.Data.SortedMap
import LoadGenerator.Number.Double

namespace LoadGenerator.Metrics

structure Counter where
  count : Nat
  totalMs : Double
  firstAt : Int

structure ThroughputStats where
  label : Bytes
  count : Nat
  averageMs : Double
  perSecond : Float
  window : Float

structure Throughput where
  counters : NameMap Counter
  startedAt : Int

namespace Throughput

def ofTime (now : Int) : Throughput := ⟨[], now⟩

def recordMs (t : Throughput) (now : Int) (label : Bytes) (ms : Double) : Throughput :=
  { t with
    counters := SortedMap.alter t.counters label ⟨0, .ofFloat 0, now⟩ fun c =>
      { c with count := c.count + 1, totalMs := ms + c.totalMs } }

def msOfNs (ns : Int) : Float := Float.ofInt ns / 1e6

def recordNs (t : Throughput) (now : Int) (label : Bytes) (ns : Int) : Throughput :=
  t.recordMs now label (.ofFloat (msOfNs ns))

def secondsBetween (start stop : Int) : Float := Float.ofInt (stop - start) / 1e9

def rate (count : Nat) (window : Float) : Float :=
  if 0 < window then Float.ofNat count / window else 0

def Counter.stats (label : Bytes) (c : Counter) (now : Int) : ThroughputStats :=
  let window := secondsBetween c.firstAt now
  { label := label
    count := c.count
    averageMs := if 0 < c.count then c.totalMs / .ofFloat (.ofNat c.count) else .ofFloat 0
    perSecond := rate c.count window
    window := window }

def stats? (t : Throughput) (now : Int) (label : Bytes) : Option ThroughputStats :=
  (SortedMap.get? t.counters label).map fun c => Counter.stats label c now

def all (t : Throughput) (now : Int) : List ThroughputStats :=
  t.counters.map fun (label, c) => Counter.stats label c now

def count (t : Throughput) : Nat := t.counters.foldl (fun n (_, c) => n + c.count) 0

def total (t : Throughput) (now : Int) : Float := rate t.count (secondsBetween t.startedAt now)

end Throughput

end LoadGenerator.Metrics
