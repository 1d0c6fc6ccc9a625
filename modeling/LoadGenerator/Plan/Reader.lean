import LoadGenerator.Json.Printer
import LoadGenerator.Plan.Basic
import LoadGenerator.Plan.Duration

namespace LoadGenerator.PlanReader

variable {α : Type} [Scalar α]

abbrev Read (β : Type) := Except ConfigError β

def fail {β : Type} (field : Bytes) (message : String) : Read β := .error ⟨field, utf8 message⟩

def isObject : Json → Bool
  | .object _ => true
  | _ => false

def requireObject (field : Bytes) (v : Json) : Read PUnit :=
  if isObject v then .ok ⟨⟩ else fail field "must be an object"

def present? (v : Json) (key : String) : Option Json := (v.member? (utf8 key)).filter (!·.isNull)

def under (field : Bytes) (key : String) : Bytes := field ++ utf8 "." ++ utf8 key

def itemPath (field : Bytes) (i : Nat) : Bytes :=
  field ++ utf8 "[" ++ Text.ofNat i ++ utf8 "]"

def string? (v : Json) (field : Bytes) (key : String) : Read (Option Bytes) :=
  match present? v key with
  | none => .ok none
  | some (.string s) => .ok (some s)
  | some _ => fail (under field key) "must be a string"

def number? (v : Json) (field : Bytes) (key : String) : Read (Option α) :=
  match present? v key with
  | none => .ok none
  | some n =>
    match n.number?.bind Scalar.ofDecimal with
    | some x => .ok (some x)
    | none => fail (under field key) "must be a number"

def requiredNumber (v : Json) (field : Bytes) (key : String) : Read α := do
  match ← number? v field key with
  | some x => .ok x
  | none => fail (under field key) "is required"

def requiredString (v : Json) (field : Bytes) (key : String) : Read Bytes :=
  match string? v field key with
  | .ok (some s) => .ok s
  | _ => fail (under field key) "must be a string"

def duration (v : Json) (field : Bytes) : Read α :=
  (Duration.ofJson v).mapError (Duration.Failure.inField field)

def duration? (v : Json) (field : Bytes) (key : String) : Read (Option α) :=
  match v.member? (utf8 key) with
  | none => .ok none
  | some d => (duration d (under field key)).map some

def requiredDuration (v : Json) (field : Bytes) (key : String) : Read α := do
  match ← duration? v field key with
  | some x => .ok x
  | none => fail (under field key) "is required"

def boolean? (v : Json) (field : Bytes) (key : String) : Read (Option Bool) :=
  match v.member? (utf8 key) with
  | none => .ok none
  | some (.bool b) => .ok (some b)
  | some _ => fail (under field key) "must be a boolean"

def each {β : Type} (read : Bytes → Json → Read β) (field : Bytes) (items : List Json) :
    Read (List β) :=
  items.zipIdx.mapM fun (v, i) => read (itemPath field i) v

def items (v : Json) (field : Bytes) (key : String) : Read (List Json) :=
  match v.member? (utf8 key) with
  | none => .ok []
  | some (.array items) => .ok items
  | some _ => fail (under field key) "must be an array"

def shares? (v : Json) : Option (PhaseShares α) :=
  match v with
  | .array items =>
    (items.mapM fun (n : Json) => n.number?.bind Scalar.ofDecimal).bind PhaseShares.ofList?
  | _ => none

def daily (v : Json) : Read (LoadModel α) := do
  let field := utf8 "load"
  let min ← requiredNumber v field "min"
  let mid ← requiredNumber v field "mid"
  let max ← requiredNumber v field "max"
  let cycle ← requiredDuration v field "cycleDuration"
  let shares ← match v.member? (utf8 "ratios") with
    | none => .ok PhaseShares.usual
    | some r =>
      match shares? r with
      | some shares => .ok shares
      | none => fail (under field "ratios") "must be an array of five numbers"
  .ok (.daily ⟨min, mid, max, cycle, shares⟩)

def ramp (v : Json) : Read (LoadModel α) := do
  let field := utf8 "load"
  let min ← requiredNumber v field "min"
  let max ← requiredNumber v field "max"
  let seconds ← requiredDuration v field "rampDuration"
  .ok (.ramp min max seconds)

def unknownModel (name : Bytes) : ConfigError :=
  ⟨utf8 "load.model",
    utf8 "unknown model '" ++ name ++ utf8 "' (concurrent, rps, ramp, dailytraffic)"⟩

def load (v : Json) : Read (LoadModel α) := do
  let field := utf8 "load"
  requireObject field v
  let name := ((← string? v field "model").getD (utf8 "concurrent")).toLower
  if name = utf8 "concurrent" then .ok .concurrent
  else if name = utf8 "rps" then
    let target ← requiredNumber v field "target"
    .ok (.constant target)
  else if name = utf8 "ramp" ∨ name = utf8 "ramprps" then ramp v
  else if name = utf8 "dailytraffic" then daily v
  else .error (unknownModel name)

/-- A body is sent as it is written if it is a string, and else as compact JSON. -/
def body : Json → Bytes
  | .string s => s
  | v => v.compact

def headers (field : Bytes) (members : List (Bytes × Json)) : Read (NameMap Bytes) :=
  members.mapM fun (name, v) => match v with
    | .string s => .ok (name, s)
    | _ => fail (field ++ utf8 "." ++ name) "must be a string"

def request (field : Bytes) (v : Json) : Read RequestTemplate := do
  requireObject field v
  let method := ((← string? v field "method").getD (utf8 "GET")).toUpper
  let some path ← string? v field "path" | fail (under field "path") "is required"
  let headers ← match present? v "headers" with
    | none => .ok []
    | some (.object members) => headers (under field "headers") members
    | some _ => fail (under field "headers") "must be an object"
  .ok ⟨method, path, (present? v "body").map body, headers⟩

def name (v : Json) (field : Bytes) : Read Bytes := do
  match ← string? v field "name" with
  | some (b :: s) => .ok (b :: s)
  | _ => fail (under field "name") "is required"

def pattern (v : Json) (field : Bytes) : Read Pattern := do
  let source ← requiredString v field "regex"
  match Pattern.compile source with
  | .ok p => .ok p
  | .error e => .error ⟨under field "regex", utf8 "invalid regex " ++ e⟩

/-- The text of a group: a whole number in a word of 32 bits, or a text as it is. -/
def group (v : Json) : Bytes :=
  match v.member? (utf8 "group") with
  | some (.int n) => Text.ofInt (n.bmod (1 <<< 32))
  | some (.string s) => s
  | _ => []

def has (v : Json) (key : String) : Bool := (v.member? (utf8 key)).isSome

def extractor (v : Json) (field : Bytes) : Read Extractor :=
  if has v "jsonPath" then (requiredString v field "jsonPath").map .jsonPath
  else if has v "regex" then (pattern v field).map (.regex · (group v))
  else if has v "header" then (requiredString v field "header").map .header
  else if has v "cookie" then (requiredString v field "cookie").map .cookie
  else fail field "needs one of jsonPath, regex, header, cookie"

def extraction (field : Bytes) (v : Json) : Read Extraction := do
  requireObject field v
  let name ← name v field
  let extractor ← extractor v field
  .ok ⟨name, extractor⟩

def statusCode (α : Type) [Scalar α] (v : Json) (field : Bytes) : Read Assertion := do
  let code : α ← requiredNumber v field "expected"
  if code < Scalar.ofInt 100 ∨ Scalar.ofInt 599 < code then
    fail (under field "expected") "must be an HTTP status code"
  else .ok (.statusCode (Scalar.truncate code).toNat)

def assertion (α : Type) [Scalar α] (field : Bytes) (v : Json) : Read Assertion := do
  requireObject field v
  let some type ← string? v field "type" | fail (under field "type") "is required"
  if type = utf8 "statusCode" then statusCode α v field
  else if type = utf8 "bodyContains" then (requiredString v field "text").map .bodyContains
  else if type = utf8 "responseTime" then
    let max : α ← requiredDuration v field "max"
    .ok (.responseTime (Duration.toMillis max))
  else if type = utf8 "jsonPath" then
    let path ← requiredString v field "path"
    let expected ← string? v field "expected"
    .ok (.jsonPath path expected)
  else if type = utf8 "bodyMatches" then (pattern v field).map .bodyMatches
  else if type = utf8 "headerExists" then (requiredString v field "header").map .headerExists
  else .error ⟨under field "type", utf8 "unknown assertion '" ++ type ++ utf8 "'"⟩

def thinkTime (α : Type) [Scalar α] (field : Bytes) (v : Json) : Read ThinkTime :=
  if isObject v then do
    let min : α ← requiredDuration v field "min"
    let max : α ← requiredDuration v field "max"
    if max < min then fail field "min must not exceed max"
    else .ok (.between (Duration.toMillis min) (Duration.toMillis max))
  else do
    let pause : α ← duration v field
    .ok (.fixed (Duration.toMillis pause))

def step (α : Type) [Scalar α] (field : Bytes) (v : Json) : Read Step := do
  requireObject field v
  let name := (← string? v field "name").getD field
  let some r := v.member? (utf8 "request") | fail (under field "request") "is required"
  let request ← request (under field "request") r
  let extractions ← each extraction (under field "extract") (← items v field "extract")
  let assertions ← each (assertion α) (under field "assertions") (← items v field "assertions")
  let thinkTime ← match present? v "thinkTime" with
    | none => .ok none
    | some t => (thinkTime α (under field "thinkTime") t).map some
  .ok ⟨name, request, extractions, assertions, thinkTime, (present? v "cache").map (·.compact)⟩

def steps (α : Type) [Scalar α] (field : Bytes) (v : Json) : Read (List Step) :=
  match v.member? (utf8 "steps") with
  | some (.array (s :: rest)) => each (step α) (under field "steps") (s :: rest)
  | _ => fail (under field "steps") "must be a non-empty array"

def checkGuard (g : GuardConfig α) : Read (GuardConfig α) :=
  if g.warning ≤ Scalar.zero ∨ g.critical ≤ Scalar.zero then
    fail (utf8 "memoryGuard") "thresholds must be > 0"
  else if g.critical < g.warning then
    fail (utf8 "memoryGuard.warningPercent") "must not exceed criticalPercent"
  else if g.intervalMs ≤ 0 then fail (utf8 "memoryGuard.interval") "must be > 0"
  else .ok g

def guard (v : Json) : Read (GuardConfig α) := do
  let field := utf8 "memoryGuard"
  requireObject field v
  let usual : GuardConfig α := .usual
  let warning ← number? v field "warningPercent"
  let critical ← number? v field "criticalPercent"
  let interval : Option α ← duration? v field "interval"
  let autoDisable ← boolean? v field "autoDisable"
  checkGuard
    { warning := warning.getD usual.warning
      critical := critical.getD usual.critical
      intervalMs := (interval.map Duration.toMillis).getD usual.intervalMs
      autoDisable := autoDisable.getD usual.autoDisable }

def workers (v : Json) (field : Bytes) (usual : Nat) : Read Nat := do
  match ← (number? v field "workers" : Read (Option α)) with
  | none => .ok usual
  | some n =>
    if n < Scalar.one ∨ !Scalar.isWhole n then
      fail (under field "workers") "must be a positive integer"
    else .ok (Scalar.toWord n)

def sampling (v : Json) (field : Bytes) (usual : Nat) : Read Nat := do
  match ← (number? v field "samplingRate" : Read (Option α)) with
  | none => .ok usual
  | some n =>
    if n < Scalar.one ∨ Scalar.ofInt 100 < n then
      fail (under field "samplingRate") "must be between 1 and 100"
    else .ok (Scalar.truncate n).toNat

def settings (v : Json) (p : Plan α) : Read (Plan α) := do
  let field := utf8 "config"
  requireObject field v
  let baseUrl ← string? v field "baseUrl"
  let workers ← workers (α := α) v field p.workers
  let duration ← duration? v field "duration"
  let timeout : Option α ← duration? v field "timeout"
  let sampling ← sampling (α := α) v field p.sampling
  let percentiles ← boolean? v field "percentiles"
  .ok { p with
    baseUrl := baseUrl.getD p.baseUrl
    workers := workers
    duration := duration.getD p.duration
    timeoutMs := (timeout.map Duration.toMillis).getD p.timeoutMs
    sampling := sampling
    percentiles := percentiles.getD p.percentiles }

end LoadGenerator.PlanReader
