import LoadGenerator.Scenario.Extract

namespace LoadGenerator

inductive AssertionKind where
  | statusCode
  | bodyContains
  | responseTime
  | jsonPath
  | bodyMatches
  | headerExists
  | unknown
  deriving DecidableEq, Repr

def AssertionKind.label : AssertionKind → String
  | .statusCode => "status_code"
  | .bodyContains => "body_contains"
  | .responseTime => "response_time"
  | .jsonPath => "json_path"
  | .bodyMatches => "body_matches"
  | .headerExists => "header_exists"
  | .unknown => "unknown"

structure AssertionFailure where
  kind : AssertionKind
  expected : Bytes
  actual : Bytes
  deriving DecidableEq, Repr

def AssertionFailure.text (f : AssertionFailure) : Bytes :=
  utf8 f.kind.label ++ utf8 ": expected " ++ f.expected ++ utf8 ", got " ++ f.actual

namespace Assertion

open Http

def jsonAt (reader : BodyReader) (path body : Bytes) : Except Bytes Json :=
  match Json.Path.parse path with
  | .error e => .error (utf8 "invalid path: " ++ e.message path)
  | .ok segments =>
    match reader.document? body with
    | none => .error (utf8 "body is not JSON")
    | some doc =>
      match doc.resolve? segments with
      | none => .error (path ++ utf8 " not found")
      | some v => .ok v

def checkJson (reader : BodyReader) (path : Bytes) (expected : Option Bytes) (body : Bytes) :
    Option AssertionFailure :=
  let fail (actual : Bytes) : Option AssertionFailure :=
    some ⟨.jsonPath, expected.getD (utf8 "<present>"), actual⟩
  match jsonAt reader path body with
  | .error actual => fail actual
  | .ok v =>
    match expected with
    | none => none
    | some text => if v.render = text then none else fail v.render

def checkPattern (reader : BodyReader) (p : Pattern) (body : Bytes) : Option AssertionFailure :=
  match p.searchBy reader.find body with
  | .error e => some ⟨.bodyMatches, p.source, e⟩
  | .ok [] => some ⟨.bodyMatches, p.source, utf8 "no match"⟩
  | .ok _ => none

def checkBy (reader : BodyReader) (a : Assertion) (r : Response) (elapsedMs : Float) :
    Option AssertionFailure :=
  match a with
  | .statusCode expected =>
    if r.status = expected then none
    else some ⟨.statusCode, Text.ofNat expected, Text.ofNat r.status⟩
  | .bodyContains text =>
    if r.body.contains text then none
    else some ⟨.bodyContains, text, utf8 "substring not found"⟩
  | .responseTime maxMs =>
    if elapsedMs ≤ Float.ofInt maxMs then none
    else some ⟨.responseTime, utf8 "<= " ++ Text.ofInt maxMs ++ utf8 "ms",
      Text.fixed 1 elapsedMs ++ utf8 "ms"⟩
  | .jsonPath path expected => checkJson reader path expected r.body
  | .bodyMatches pattern => checkPattern reader pattern r.body
  | .headerExists name =>
    if (r.header? name).isSome then none else some ⟨.headerExists, name, utf8 "missing"⟩

def check (a : Assertion) (r : Response) (elapsedMs : Float) : Option AssertionFailure :=
  a.checkBy .usual r elapsedMs

structure Report where
  passed : Nat
  failures : List AssertionFailure

def checkAll (assertions : List Assertion) (r : Response) (elapsedMs : Float) : Report :=
  let failures := assertions.filterMap (check · r elapsedMs)
  ⟨assertions.length - failures.length, failures⟩

end Assertion

end LoadGenerator
