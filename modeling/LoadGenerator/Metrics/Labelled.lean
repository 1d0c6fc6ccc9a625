import LoadGenerator.Data.SortedMap
import LoadGenerator.Metrics.Histogram

namespace LoadGenerator.Metrics

structure Labelled where
  name : Bytes
  cap : Nat
  histograms : NameMap Histogram
  recency : List Bytes
  evictions : Nat
  warned : Bool

namespace Labelled

def usualCap : Nat := 100

def ofCap (name : Bytes) (cap : Nat) : Labelled := ⟨name, max cap 1, [], [], 0, false⟩

def count (t : Labelled) : Nat := t.histograms.length

def warnAt (t : Labelled) : Nat := (t.cap * 8 + 9) % Word.count / 10

def warning (t : Labelled) : Bytes :=
  utf8 "[Metrics] " ++ t.name ++ utf8 ": " ++ Text.ofNat t.count ++
    utf8 " labels in use (cap " ++ Text.ofNat t.cap ++
    utf8 "); least recently used labels will be evicted"

def warn (t : Labelled) : Labelled × List Bytes :=
  if !t.warned && t.warnAt ≤ t.count then ({ t with warned := true }, [t.warning])
  else (t, [])

def evict (t : Labelled) : Labelled :=
  match t.recency.getLast? with
  | some victim =>
    { t with
      histograms := t.histograms.erase victim
      recency := t.recency.dropLast
      evictions := t.evictions + 1 }
  | none => t

def makeRoom (t : Labelled) : Labelled := if t.cap ≤ t.count then t.evict else t

def hold (t : Labelled) (label : Bytes) : Labelled :=
  { t with histograms := t.histograms.insert label .empty, recency := label :: t.recency }

def acquire (t : Labelled) (label : Bytes) : Labelled × List Bytes :=
  if t.histograms.contains label then ({ t with recency := label :: t.recency.erase label }, [])
  else (t.makeRoom.hold label).warn

def record (t : Labelled) (label : Bytes) (add : Histogram → Histogram) : Labelled × List Bytes :=
  let (t, lines) := t.acquire label
  ({ t with histograms := t.histograms.alter label .empty add }, lines)

def recordMs (t : Labelled) (label : Bytes) (ms : Float) : Labelled × List Bytes :=
  t.record label (·.recordMs ms)

def recordUs (t : Labelled) (label : Bytes) (us : Nat) : Labelled × List Bytes :=
  t.record label (·.recordUs us)

def stats? (t : Labelled) (label : Bytes) : Option LatencyStats :=
  (t.histograms.get? label).bind Histogram.stats?

def labels (t : Labelled) : List Bytes := t.histograms.map (·.1)

def all (t : Labelled) : List (Bytes × LatencyStats) :=
  t.histograms.filterMap fun (label, h) => h.stats?.map (label, ·)

def rotate (t : Labelled) : Labelled :=
  { t with histograms := t.histograms.map fun (label, h) => (label, h.rotate) }

def reset (t : Labelled) : Labelled := { t with histograms := [], recency := [], warned := false }

def sampled (t : Labelled) : Nat := (t.histograms.filter fun (_, h) => h.count ≠ 0).length

end Labelled

end LoadGenerator.Metrics
