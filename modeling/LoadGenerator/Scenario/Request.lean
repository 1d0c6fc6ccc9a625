import LoadGenerator.Http.Url
import LoadGenerator.Scenario.Basic
import LoadGenerator.Scenario.Cookies
import LoadGenerator.Scenario.Variables

namespace LoadGenerator

namespace RequestTemplate

open Http

def isCookie (name : Bytes) : Bool := Bytes.sameText name (utf8 "cookie")

/-- The value of the last header that is named `Cookie` in whatever case. -/
def ownCookie? (headers : Headers) : Option Bytes :=
  (headers.filter fun (name, _) => isCookie name).getLast?.map (·.2)

/-- The cookies of the template stand before those of the jar. -/
def joinCookies : Option Bytes → Option Bytes → Option Bytes
  | some own, some jar => some (own ++ utf8 "; " ++ jar)
  | own, jar => own.or jar

def build (t : RequestTemplate) (baseUrl : Bytes) (timeoutMs : Int) (fill : Bytes → Bytes)
    (jar : CookieJar) : Request :=
  let headers := t.headers.map fun (name, v) => (name, fill v)
  let cookie := joinCookies (ownCookie? headers) jar.header?
  { method := (fill t.method).toUpper
    url := Url.join baseUrl (fill t.path)
    headers := headers.filter (fun (name, _) => !isCookie name) ++
      (cookie.map fun v => (utf8 "Cookie", v)).toList
    body := t.body.map fill
    timeoutMs := timeoutMs
    discardBody := false }

def plain (t : RequestTemplate) (baseUrl : Bytes) (timeoutMs : Int) : Request :=
  { method := t.method
    url := Url.join baseUrl t.path
    headers := t.headers
    body := t.body
    timeoutMs := timeoutMs
    discardBody := true }

end RequestTemplate

end LoadGenerator
