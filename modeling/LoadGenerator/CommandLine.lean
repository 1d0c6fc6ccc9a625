import LoadGenerator.Plan.Loader

namespace LoadGenerator

/-- What is asked for; of an option that is given twice the last one counts. -/
structure Options where
  plan : Option Bytes
  url : Option Bytes
  workers : Option Nat
  duration : Option Bytes
  threads : Nat
  watch : Bool
  jsonReport : Option Bytes
  deriving DecidableEq, Repr

namespace CommandLine

inductive Command where
  | help
  | run (o : Options)
  deriving DecidableEq, Repr

inductive Failure where
  | unknown (arg : Bytes)
  | notNumber
  | outOfRange
  deriving DecidableEq, Repr

inductive Setting where
  | plan
  | url
  | workers
  | duration
  | threads
  | jsonReport
  deriving DecidableEq, Repr

inductive Flag where
  | help
  | watch
  | setting (s : Setting)
  deriving DecidableEq, Repr

def spellings : List (Bytes × Flag) :=
  [(utf8 "--help", .help), (utf8 "-h", .help), (utf8 "--watch", .watch),
    (utf8 "--plan", .setting .plan), (utf8 "--url", .setting .url),
    (utf8 "--workers", .setting .workers), (utf8 "--duration", .setting .duration),
    (utf8 "--threads", .setting .threads), (utf8 "--json-report", .setting .jsonReport)]

def flag? (arg : Bytes) : Option Flag := List.lookup arg spellings

/-- The number at the front of a text; what follows it is not looked at. -/
def number (s : Bytes) : Except Failure Nat :=
  match Numeral.readWord s with
  | .ok (n, _) => .ok n
  | .error .missing => .error .notNumber
  | .error .tooLarge => .error .outOfRange

def set (o : Options) (s : Setting) (v : Bytes) : Except Failure Options :=
  match s with
  | .plan => .ok { o with plan := some v }
  | .url => .ok { o with url := some v }
  | .workers => (number v).map fun n => { o with workers := some n }
  | .duration => .ok { o with duration := some v }
  | .threads => (number v).map fun n => { o with threads := n }
  | .jsonReport => .ok { o with jsonReport := some v }

def parseFrom (o : Options) : List Bytes → Except Failure Command
  | [] => .ok (.run o)
  | arg :: args =>
    match flag? arg, args with
    | some .help, _ => .ok .help
    | some .watch, args => parseFrom { o with watch := true } args
    | some (.setting s), v :: args =>
      match set o s v with
      | .error e => .error e
      | .ok o => parseFrom o args
    | _, _ => .error (.unknown arg)

def noOptions : Options := ⟨none, none, none, none, 0, false, none⟩

def parse (args : List Bytes) : Except Failure Command := parseFrom noOptions args

def usageLines (program : Bytes) : List Bytes :=
  [utf8 "Usage: " ++ program ++ utf8 " [options]",
    [],
    utf8 "Options:",
    utf8 "  --plan <FILE>         JSON test plan",
    utf8 "  --url <URL>           Target base URL (overrides the plan)",
    utf8 "  --workers <N>         Worker count (overrides the plan)",
    utf8 "  --duration <D>        Run length, e.g. 30s, 5m (overrides the plan)",
    utf8 "  --threads <N>         I/O threads (default: hardware concurrency)",
    utf8 "  --watch               Reload the plan file when it changes",
    utf8 "  --json-report <FILE>  Also write the report as JSON",
    utf8 "  --help                Show this help",
    [],
    utf8 "Without --plan, --url is required and every worker sends GET requests",
    utf8 "to it as fast as responses come back."]

def usage (program : Bytes) : List Notice := (usageLines program).map Notice.info

def complaint (arg : Bytes) : Notice :=
  .warning (utf8 "Unknown or incomplete option: " ++ arg)

end CommandLine

namespace Options

open PlanLoader

variable {α : Type} [Scalar α]

def bareRequest : RequestTemplate := ⟨utf8 "GET", utf8 "/", none, []⟩

def basis (o : Options) (fs : Files) : Load (LoadedPlan α) :=
  match o.plan, o.url with
  | some path, _ => PlanLoader.ofFile fs path
  | none, some _ => pure ⟨{ Plan.usual with request := some bareRequest }, []⟩
  | none, none => throw (.of "url" "either --plan or --url is required")

def withUrl (o : Options) (p : Plan α) : Plan α := { p with baseUrl := o.url.getD p.baseUrl }

def withWorkers (o : Options) (p : Plan α) : Except ConfigError (Plan α) :=
  match o.workers with
  | none => .ok p
  | some 0 => .error (.of "workers" "must be at least 1")
  | some n => .ok { p with workers := n }

def withDuration (o : Options) (p : Plan α) : Except ConfigError (Plan α) :=
  match o.duration with
  | none => .ok p
  | some text =>
    match Duration.parse text with
    | .error e => .error (e.inField (utf8 "duration"))
    | .ok d => .ok { p with duration := d }

def load (o : Options) (fs : Files) : Load (LoadedPlan α) := do
  let l ← o.basis fs
  let p ← ExceptT.mk (pure (o.withWorkers (o.withUrl l.plan)))
  let p ← ExceptT.mk (pure (o.withDuration p))
  pure { l with plan := p }

end Options

end LoadGenerator
