import LoadGenerator.Http.Message
import LoadGenerator.Json.Parser
import LoadGenerator.Json.Path
import LoadGenerator.Scenario.Basic
import LoadGenerator.Scenario.Cookies
import LoadGenerator.Scenario.Variables

namespace LoadGenerator

inductive ExtractionKind where
  | invalidJson
  | pathNotFound
  | invalidPath
  | invalidRegex
  | noMatch
  | matchAborted
  | headerNotFound
  | cookieNotFound
  | unknown
  deriving DecidableEq, Repr

def ExtractionKind.label : ExtractionKind → String
  | .invalidJson => "invalid_json"
  | .pathNotFound => "path_not_found"
  | .invalidPath => "invalid_path"
  | .invalidRegex => "invalid_regex"
  | .noMatch => "no_match"
  | .matchAborted => "match_aborted"
  | .headerNotFound => "header_not_found"
  | .cookieNotFound => "cookie_not_found"
  | .unknown => "unknown"

structure ExtractionFailure where
  kind : ExtractionKind
  name : Bytes
  detail : Bytes
  deriving DecidableEq, Repr

def ExtractionFailure.text (f : ExtractionFailure) : Bytes :=
  f.name ++ utf8 " <- " ++ utf8 f.kind.label ++
    if f.detail.isEmpty then [] else utf8 " (" ++ f.detail ++ utf8 ")"

/-- What reads the body of a response: as a document, which not every text is, and in search of a
pattern. -/
structure BodyReader where
  document? : Bytes → Option Json
  find : Pattern.Matcher

def BodyReader.usual : BodyReader := ⟨Json.parse?, Pattern.backtrack⟩

namespace Extractor

open Http

abbrev Result := Except (ExtractionKind × Bytes) Bytes

def fromJson (reader : BodyReader) (path body : Bytes) : Result :=
  match Json.Path.parse path with
  | .error e => .error (.invalidPath, e.message path)
  | .ok segments =>
    match reader.document? body with
    | none => .error (.invalidJson, utf8 "response body is not JSON")
    | some doc =>
      match doc.resolve? segments with
      | none => .error (.pathNotFound, path)
      | some v => .ok v.render

def groupIndex? (group : Bytes) (count : Nat) : Option Nat :=
  if group.isEmpty then some (if 1 < count then 1 else 0)
  else match Numeral.read Word.largest group with
    | .ok (n, _) => if n < count then some n else none
    | .error _ => none

def fromPattern (reader : BodyReader) (p : Pattern) (group body : Bytes) : Result :=
  if p.compiled.isNone then
    .error (.invalidRegex, utf8 "'" ++ p.source ++ utf8 "' was not compiled")
  else match p.searchBy reader.find body with
    | .error e => .error (.matchAborted, p.source ++ utf8 ": " ++ e)
    | .ok [] => .error (.noMatch, p.source)
    | .ok groups =>
      match (groupIndex? group groups.length).bind (groups[·]?) with
      | some v => .ok v
      | none => .error (.noMatch, utf8 "capture group " ++ group ++ utf8 " not in " ++ p.source)

def fromHeader (name : Bytes) (headers : Headers) : Result :=
  match headers.find? name with
  | some v => .ok v
  | none => .error (.headerNotFound, name)

def cookieValue? (name : Bytes) (header : Bytes × Bytes) : Option Bytes :=
  if SetCookie.isSetCookie header.1 then
    match SetCookie.parse? header.2 with
    | some (k, v) => if k = name then some v else none
    | none => none
  else none

def fromCookies (name : Bytes) (headers : Headers) : Result :=
  match headers.findSome? (cookieValue? name) with
  | some v => .ok v
  | none => .error (.cookieNotFound, name)

def applyBy (reader : BodyReader) (e : Extractor) (r : Response) : Result :=
  match e with
  | .jsonPath path => fromJson reader path r.body
  | .regex pattern group => fromPattern reader pattern group r.body
  | .header name => fromHeader name r.headers
  | .cookie name => fromCookies name r.headers

def apply (e : Extractor) (r : Response) : Result := e.applyBy .usual r

end Extractor

namespace Extraction

structure Report where
  vars : Variables
  extracted : Nat
  failures : List ExtractionFailure

/-- Do one extraction; where it fails the variable keeps its value. -/
def step (response : Http.Response) (report : Report) (e : Extraction) : Report :=
  match e.extractor.apply response with
  | .ok v =>
    { report with
      vars := report.vars.insert e.name v
      extracted := report.extracted + 1 }
  | .error (kind, detail) =>
    { report with failures := report.failures ++ [⟨kind, e.name, detail⟩] }

def runAll (extractions : List Extraction) (response : Http.Response) (vars : Variables) : Report :=
  extractions.foldl (step response) ⟨vars, 0, []⟩

end Extraction

end LoadGenerator
