import LoadGenerator.Number.Word

namespace LoadGenerator.Metrics

namespace Bucket

def linear : Nat := 256

def perPower : Nat := 128

def count : Nat := linear + 18 * perPower

def index (v : Nat) : Nat :=
  if v < linear then v
  else
    let shift := v.log2 - 7
    linear + (shift - 1) * perPower + (v >>> shift - perPower)

/-- How far the values of a bucket are shifted to get its mantissa. -/
def shift (i : Nat) : Nat := (i - linear) / perPower + 1

def shiftWord (m distance : Nat) : Nat := m <<< (distance % 64) % Word.count

def lower (i : Nat) : Nat :=
  if i < linear then i else shiftWord ((i - linear) % perPower + perPower) (shift i)

def width (i : Nat) : Nat := if i < linear then 1 else shiftWord 1 (shift i)

end Bucket

def leastUs : Nat := 1

def mostUs : Nat := 60000000

def clampUs (v : Nat) : Nat := min (max v leastUs) mostUs

structure Histogram where
  counts : Array Nat
  count : Nat
  sum : Nat
  least : Nat
  most : Nat

structure LatencyStats where
  count : Nat
  least : Nat
  most : Nat
  mean : Float
  p50 : Nat
  p90 : Nat
  p95 : Nat
  p99 : Nat
  p999 : Nat

namespace Histogram

def empty : Histogram := ⟨Array.replicate Bucket.count 0, 0, 0, Word.largest, 0⟩

def add (h : Histogram) (v : Nat) : Histogram :=
  { counts := h.counts.modify (Bucket.index v) (· + 1)
    count := h.count + 1
    sum := h.sum + v
    least := min h.least v
    most := max h.most v }

def recordUs (h : Histogram) (v : Nat) : Histogram := h.add (clampUs v)

/-- The microseconds of a latency in milliseconds, rounded; what is not above zero counts as the
least value. -/
def usOfMs (ms : Float) : Nat :=
  if 0 < ms then
    let us := ms * 1000
    (if Float.ofNat mostUs < us then Float.ofNat mostUs else us).round.toUInt64.toNat
  else leastUs

def recordMs (h : Histogram) (ms : Float) : Histogram := h.recordUs (usOfMs ms)

def usOfNs (ns : Int) : Nat := if 0 < ns.tdiv 1000 then (ns.tdiv 1000).toNat else leastUs

def recordNs (h : Histogram) (ns : Int) : Histogram := h.recordUs (usOfNs ns)

def reset (h : Histogram) : Histogram :=
  { counts := h.counts.map fun _ => 0, count := 0, sum := 0, least := Word.largest, most := 0 }

def rotate (_ : Histogram) : Histogram := empty

/-- The first bucket, from bucket `i` on, up to which at least `rank` values have been seen. -/
def bucketAt (rank : Nat) : Nat → Nat → List Nat → Option Nat
  | _, _, [] => none
  | i, seen, n :: counts =>
    if rank ≤ seen + n then some i else bucketAt rank (i + 1) (seen + n) counts

/-- The value reported for the value of the given rank: the middle of its bucket, kept between the
least and the greatest value. -/
def valueAt (h : Histogram) (rank : Nat) : Nat :=
  match bucketAt rank 0 0 h.counts.toList with
  | some i => min (max (Bucket.lower i + Bucket.width i / 2) h.least) h.most
  | none => h.most

def rankOf (percent : Float) (total : Nat) : Nat :=
  let p : Float := if percent < 0 then 0 else if 100 < percent then 100 else percent
  let rank := (p / 100 * Float.ofNat total).ceil
  if rank ≤ Float.ofNat total then max 1 rank.toUInt64.toNat else total

def percentile (h : Histogram) (percent : Float) : Nat :=
  if h.count = 0 then 0 else h.valueAt (rankOf percent h.count)

def stats? (h : Histogram) : Option LatencyStats :=
  if h.count = 0 then none
  else some
    { count := h.count
      least := h.least
      most := h.most
      mean := Float.ofNat h.sum / Float.ofNat h.count
      p50 := h.percentile 50
      p90 := h.percentile 90
      p95 := h.percentile 95
      p99 := h.percentile 99
      p999 := h.percentile 99.9 }

end Histogram

end LoadGenerator.Metrics
