import LoadGenerator.Metrics.Histogram
import LoadGenerator.Metrics.Throughput
import LoadGenerator.Number.Decimal

namespace LoadGenerator.Metrics.Format

def latency (us : Float) : Bytes :=
  if us < 1000 then Text.fixed 0 us ++ utf8 "us"
  else if us < 1000000 then Text.fixed 2 (us / 1000) ++ utf8 "ms"
  else Text.fixed 2 (us / 1000000) ++ utf8 "s"

def rate (perSecond : Float) : Bytes := Text.fixed 1 perSecond ++ utf8 " req/s"

def percent (p : Float) : Bytes := Text.fixed 1 p ++ utf8 "%"

def scaleBytes : Float → List String → Float × String → Float × String
  | _, [], best => best
  | x, unit :: units, best =>
    if 1024 ≤ x then scaleBytes (x / 1024) units (x / 1024, unit) else best

def bytes (n : Nat) : Bytes :=
  let (x, unit) := scaleBytes (Float.ofNat n) ["KiB", "MiB", "GiB", "TiB"] (Float.ofNat n, "B")
  if unit = "B" then Text.ofNat n ++ utf8 " B" else Text.fixed 1 x ++ utf8 " " ++ utf8 unit

def latencyOf (us : Nat) : Bytes := latency (Float.ofNat us)

def latencyLine (s : LatencyStats) : Bytes :=
  utf8 "count=" ++ Text.ofNat s.count ++ utf8 " p50=" ++ latencyOf s.p50 ++
    utf8 " p90=" ++ latencyOf s.p90 ++ utf8 " p95=" ++ latencyOf s.p95 ++
    utf8 " p99=" ++ latencyOf s.p99 ++ utf8 " p99.9=" ++ latencyOf s.p999 ++
    utf8 " max=" ++ latencyOf s.most

def throughputLine (s : ThroughputStats) : Bytes :=
  utf8 "count=" ++ Text.ofNat s.count ++ utf8 " rps=" ++ Text.fixed 1 s.perSecond ++
    utf8 " avg=" ++ s.averageMs.text (Text.fixed 2) ++ utf8 "ms"

end LoadGenerator.Metrics.Format
