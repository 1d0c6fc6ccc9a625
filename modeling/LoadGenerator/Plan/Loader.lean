import LoadGenerator.Data.Files
import LoadGenerator.Json.Parser
import LoadGenerator.Plan.Reader
import LoadGenerator.Report.Notice

namespace LoadGenerator

/-- A plan, and what is odd about it though it can be run. -/
structure LoadedPlan (α : Type) where
  plan : Plan α
  warnings : List Bytes

namespace PlanLoader

open PlanReader

variable {α : Type} [Scalar α]

/-- A computation that may be refused, and tells of the tables it loads either way. -/
abbrev Load (β : Type) := ExceptT ConfigError (StateM (List Notice)) β

def ofRead {β : Type} (r : Read β) : Load β := ExceptT.mk (pure r)

def tell (n : Notice) : Load PUnit := modify (· ++ [n])

def loaded (t : Table) (path : Bytes) : Notice :=
  .info (utf8 "[DataSource] Loaded " ++ Text.ofNat t.rows.length ++ utf8 " rows (" ++
    Text.ofNat t.headers.length ++ utf8 " columns) from " ++ path)

def readTable (fs : Files) (path : Bytes) : Except Table.Failure Table :=
  match fs.read? path with
  | none => .error (.unreadable path)
  | some text => Table.parse text

def tableMessage (e : Table.Failure) : Bytes :=
  e.message ++
    if 0 < e.line then utf8 " (line " ++ Text.ofNat e.line ++ utf8 ")" else []

def table (fs : Files) (field path : Bytes) : Load Table := do
  match readTable fs path with
  | .ok t =>
    tell (loaded t path)
    pure t
  | .error e => throw ⟨under field "dataFile", tableMessage e⟩

def scenario (fs : Files) (folder field : Bytes) (v : Json) : Load (Scenario α) := do
  ofRead (requireObject field v)
  let name ← ofRead (name v field)
  let weight ← ofRead (number? v field "weight")
  let steps ← ofRead (steps α field v)
  let table ← match ← ofRead (string? v field "dataFile") with
    | none => pure none
    | some file =>
      let t ← table fs field (WrittenPath.under folder file)
      pure (some t)
  pure ⟨name, weight.getD Scalar.one, steps, table⟩

def selector (fs : Files) (folder : Bytes) (v : Json) : Load (Option (Selector α)) := do
  let items ← ofRead (match v.member? (utf8 "scenarios") with
    | none => .ok []
    | some (.array items) => .ok items
    | some _ => fail (utf8 "scenarios") "must be an array")
  let scenarios : List (Scenario α) ← items.zipIdx.mapM fun (s, i) =>
    scenario fs folder (itemPath (utf8 "scenarios") i) s
  if scenarios.isEmpty then pure none
  else
    let s ← ofRead (Selector.ofList (scenarios.map some))
    pure (some s)

def section? {β : Type} (v : Json) (key : String) (usual : β) (read : Json → Read β) : Load β :=
  match v.member? (utf8 key) with
  | none => pure usual
  | some s => ofRead (read s)

def bothWarning : Bytes := utf8 "both request and scenarios are set; scenarios are used"

def ofJson (fs : Files) (folder : Bytes) (v : Json) : Load (LoadedPlan α) := do
  if !isObject v then throw ⟨[], utf8 "plan must be a JSON object"⟩
  let p : Plan α ← section? v "config" .usual (settings · .usual)
  let load ← section? v "load" .concurrent PlanReader.load
  let warnings ← ofRead load.validate
  let guard ← section? v "memoryGuard" .usual PlanReader.guard
  let request ← match present? v "request" with
    | none => pure none
    | some r => ofRead ((request (utf8 "request") r).map some)
  let selector ← selector fs folder v
  if request.isNone && selector.isNone then
    throw ⟨utf8 "request", utf8 "plan needs a request or at least one scenario"⟩
  if p.baseUrl.isEmpty then throw ⟨utf8 "config.baseUrl", utf8 "is required"⟩
  let both := if request.isSome && selector.isSome then [bothWarning] else []
  pure ⟨{ p with load, guard, request, selector }, warnings ++ both⟩

def ofText (fs : Files) (folder text : Bytes) : Load (LoadedPlan α) :=
  match Json.parseWithComments? text with
  | none => throw ⟨[], utf8 "plan is not valid JSON"⟩
  | some v => ofJson fs folder v

def ofFile (fs : Files) (path : Bytes) : Load (LoadedPlan α) :=
  match fs.read? path with
  | none => throw ⟨utf8 "plan", utf8 "cannot open " ++ path⟩
  | some text => ofText fs (WrittenPath.folder path) text

def tablesOf (folder text : Bytes) : List Bytes :=
  match (Json.parseWithComments? text).bind (·.member? (utf8 "scenarios")) with
  | some (.array items) => items.filterMap fun s =>
    match s.member? (utf8 "dataFile") with
    | some (.string file) => some (WrittenPath.under folder file)
    | _ => none
  | _ => []

def run {β : Type} (x : Load β) : Except ConfigError β × List Notice := StateT.run x []

end PlanLoader

end LoadGenerator
