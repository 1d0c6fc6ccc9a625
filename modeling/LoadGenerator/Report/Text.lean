import LoadGenerator.Report.Summary

namespace LoadGenerator.Report

open Http Metrics

variable {α : Type} [Scalar α]

def separator : Bytes := List.replicate 60 61

def entry (name : String) (v : Bytes) : Bytes :=
  utf8 "    " ++ Bytes.padRight 13 (utf8 name ++ utf8 ":") ++ v

def countEntry (name : String) (n : Nat) : Bytes := entry name (Text.ofNat n)

def countEntry? (name : String) (n : Nat) : List Bytes := if n = 0 then [] else [countEntry name n]

def titled (title : String) (lines : List Bytes) : List Bytes :=
  [[], utf8 "  " ++ utf8 title] ++ lines

def titledIfAny (title : String) (lines : List Bytes) : List Bytes :=
  if lines.isEmpty then [] else titled title lines

def perSecond (count : Nat) (seconds : Float) : Float :=
  if 0 < seconds then Float.ofNat count / seconds else 0

def runLines (p : Plan α) (s : RunSummary α) : List Bytes :=
  titled "Run" ([entry "Target" p.baseUrl, entry "Load model" p.load.describe,
    countEntry "Workers" s.workers, entry "Duration" (Text.fixed 1 s.elapsed ++ utf8 " s")] ++
    countEntry? "Reloads" s.planUpdates)

def requestLines (t : Totals) (seconds : Float) : List Bytes :=
  titled "Requests" [countEntry "Total" t.requests, countEntry "Errors" t.errors,
    countEntry "Transport" t.transportErrors,
    entry "Rate" (Format.rate (perSecond t.requests seconds))]

def statusLine (code count : Nat) : Bytes :=
  utf8 "    " ++ Text.ofNat code ++ utf8 ":         " ++ Text.ofNat count

def categoryLine (c : ErrorCategory) (count : Nat) : Bytes :=
  utf8 "    " ++ Bytes.padRight 16 (utf8 c.label) ++ Text.ofNat count ++ utf8 "  (" ++
    utf8 c.description ++ utf8 ")"

def categoryLines (t : Totals) : List Bytes :=
  (ErrorCategory.all.zip t.categories).filterMap fun (c, n) =>
    if n = 0 then none else some (categoryLine c n)

def scenarioLines (t : Totals) : List Bytes :=
  if t.scenarios = 0 then []
  else titled "Scenarios" ([countEntry "Executed" t.scenarios,
    countEntry "Succeeded" t.successes, countEntry "Failed" t.failures] ++
    countEntry? "Cut short" t.interrupted)

def labelled (label line : Bytes) : Bytes :=
  utf8 "    " ++ Bytes.padRight 28 label ++ utf8 " " ++ line

def throughputLines (t : Throughput) (now : Int) : List Bytes :=
  if t.counters.isEmpty then []
  else titled "Throughput"
    ((t.all now).map (fun s => labelled s.label (Format.throughputLine s)) ++
      [entry "Total" (Format.rate (t.total now))])

def evictionLines (t : Labelled) : List Bytes :=
  if t.evictions = 0 then []
  else [utf8 "    (" ++ Text.ofNat t.evictions ++ utf8 " least recently used labels evicted)"]

def latencyLines (title : String) (t : Labelled) : List Bytes :=
  if t.all.isEmpty then []
  else titled title
    (t.all.map (fun (label, s) => labelled label (Format.latencyLine s)) ++ evictionLines t)

def trackingLine (r : Recorder) : Bytes :=
  entry "Tracking" (utf8 (if r.tracking then "on" else "off")) ++
    if r.skipped = 0 then []
    else utf8 " (" ++ Text.ofNat r.skipped ++ utf8 " samples skipped)"

def guardLines (g : GuardState α) (r : Recorder) : List Bytes :=
  titled "Memory guard"
    ((if g.active then
        [entry "Last usage" (Scalar.fixed 1 g.last ++ utf8 " %"),
          countEntry "Warnings" g.warnings, countEntry "Criticals" g.criticals]
      else [utf8 "    Inactive (no memory limit detected)"]) ++ [trackingLine r])

def lines (p : Plan α) (s : RunSummary α) (r : Recorder) (now : Int) : List Bytes :=
  [[], separator, utf8 "  LOAD TEST RESULTS", separator] ++
    runLines p s ++ requestLines r.totals s.elapsed ++
    titledIfAny "Status codes" (r.totals.statusCodes.map fun (code, n) => statusLine code n) ++
    titledIfAny "Errors by category" (categoryLines r.totals) ++
    scenarioLines r.totals ++ throughputLines r.throughput now ++
    latencyLines "Request latency" r.requests ++ latencyLines "Scenario latency" r.scenarios ++
    latencyLines "Step latency" r.steps ++ guardLines s.guard r ++ [separator, []]

def text (p : Plan α) (s : RunSummary α) (r : Recorder) (now : Int) : Bytes :=
  Notice.lines (lines p s r now)

end LoadGenerator.Report
