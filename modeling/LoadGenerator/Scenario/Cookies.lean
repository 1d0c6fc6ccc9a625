import LoadGenerator.Http.Message
import LoadGenerator.Data.SortedMap
import LoadGenerator.Text.Numeral

namespace LoadGenerator

def SetCookie.parts (s : Bytes) : Bytes × Bytes := (Bytes.cutByte? 59 s).getD (s, [])

namespace SetCookie

def isSetCookie (name : Bytes) : Bool := Bytes.sameText name (utf8 "set-cookie")

def unquote (s : Bytes) : Bytes :=
  if 2 ≤ s.length ∧ s.head? = some 34 ∧ s.getLast? = some 34 then s.tail.dropLast else s

def parse? (s : Bytes) : Option (Bytes × Bytes) :=
  match Bytes.cutByte? 61 (parts s).1 with
  | none => none
  | some (name, v) =>
    if name.trim.isEmpty then none else some (name.trim, unquote v.trim)

/-- Whether an attribute says that the cookie has no time left. -/
def isOver (property : Bytes) : Bool :=
  match Bytes.cutByte? 61 property.trim with
  | none => false
  | some (name, v) =>
    Bytes.sameText name.trim (utf8 "max-age") &&
      match Numeral.readSigned 64 v.trim with
      | .ok (age, _) => age ≤ 0
      | .error _ => false

def expires (s : Bytes) : Bool := (Bytes.splitOn 59 (parts s).2).any isOver

end SetCookie

abbrev CookieJar := NameMap Bytes

namespace CookieJar

/-- Obey one header: store the cookie, or drop it when its value is empty or its time is over. -/
def set (jar : CookieJar) (header : Bytes) : CookieJar :=
  match SetCookie.parse? header with
  | none => jar
  | some (name, v) =>
    if v.isEmpty || SetCookie.expires header then jar.erase name else jar.insert name v

def update (jar : CookieJar) (headers : Http.Headers) : CookieJar :=
  headers.foldl (fun jar (name, v) => if SetCookie.isSetCookie name then jar.set v else jar) jar

def pair (cookie : Bytes × Bytes) : Bytes := cookie.1 ++ utf8 "=" ++ cookie.2

def header? (jar : CookieJar) : Option Bytes :=
  if jar.isEmpty then none else some (Bytes.join (utf8 "; ") (jar.map pair))

end CookieJar

end LoadGenerator
