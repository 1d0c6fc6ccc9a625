import LoadGenerator.Json.Printer
import LoadGenerator.Report.Summary

namespace LoadGenerator.Report

open Http Metrics

def document (members : List (String × Json)) : Json :=
  Json.ofMembers (members.map fun (name, v) => (utf8 name, v))

def ofLatency (s : LatencyStats) : Json :=
  document [("count", .ofNat s.count), ("min_us", .ofNat s.least), ("max_us", .ofNat s.most),
    ("mean_us", .ofFloat s.mean), ("p50_us", .ofNat s.p50), ("p90_us", .ofNat s.p90),
    ("p95_us", .ofNat s.p95), ("p99_us", .ofNat s.p99), ("p99_9_us", .ofNat s.p999)]

def ofLabelled (t : Labelled) : Json :=
  Json.ofMembers (t.all.map fun (label, s) => (label, ofLatency s))

def ofThroughput (s : ThroughputStats) : Json :=
  document [("label", .string s.label), ("total_count", .ofNat s.count),
    ("avg_time_ms", .ofFloat s.averageMs.value), ("rps", .ofFloat s.perSecond),
    ("duration_s", .ofFloat s.window)]

def ofTotals (t : Totals) : Json :=
  document [("requests", .ofNat t.requests), ("errors", .ofNat t.errors),
    ("transport_errors", .ofNat t.transportErrors),
    ("status_codes",
      Json.ofMembers (t.statusCodes.map fun (code, n) => (Text.ofNat code, .ofNat n))),
    ("error_categories",
      document ((ErrorCategory.all.zip t.categories).map fun (c, n) => (c.label, .ofNat n))),
    ("scenarios", document [("total", .ofNat t.scenarios), ("succeeded", .ofNat t.successes),
      ("failed", .ofNat t.failures), ("interrupted", .ofNat t.interrupted)])]

variable {α : Type} [Scalar α]

def ofGuard (number : α → Json) (g : GuardState α) : Json :=
  document [("active", .bool g.active), ("warning_triggered", .bool g.warningLatched),
    ("critical_triggered", .bool g.criticalLatched), ("warnings", .ofNat g.warnings),
    ("criticals", .ofNat g.criticals), ("last_usage_percent", number g.last),
    ("tracking_disabled", .bool g.disabledAt.isSome)]

def ofRun (number : α → Json) (p : Plan α) (s : RunSummary α) (r : Recorder) (now : Int) : Json :=
  document [("target", .string p.baseUrl), ("load_model", .string p.load.describe),
    ("workers", .ofNat s.workers), ("duration_s", .ofFloat s.elapsed),
    ("iterations", .ofNat s.iterations), ("plan_updates", .ofNat s.planUpdates),
    ("outcomes", ofTotals r.totals),
    ("throughput", .array ((r.throughput.all now).map ofThroughput)),
    ("total_rps", .ofFloat (r.throughput.total now)),
    ("latency", document [("request", ofLabelled r.requests),
      ("scenario", ofLabelled r.scenarios), ("step", ofLabelled r.steps)]),
    ("tracking_active", .bool r.tracking), ("skipped_samples", .ofNat r.skipped),
    ("memory_guard", ofGuard number s.guard)]

def fileText (v : Json) : Bytes := v.indented ++ utf8 "\n"

end LoadGenerator.Report
