import LoadGenerator.Http.Message
import LoadGenerator.Text.Numeral

namespace LoadGenerator.Http

inductive Scheme where
  | http
  | https
  deriving DecidableEq, Repr

namespace Scheme

def name : Scheme → Bytes
  | .http => utf8 "http"
  | .https => utf8 "https"

def defaultPort : Scheme → Nat
  | .http => 80
  | .https => 443

def parse? (s : Bytes) : Option Scheme :=
  if s.toLower = name .http then some .http
  else if s.toLower = name .https then some .https
  else none

end Scheme

structure Url where
  scheme : Scheme
  host : Bytes
  port : Nat
  target : Bytes
  deriving DecidableEq, Repr

namespace Url

inductive Failure where
  | missingScheme
  | unsupportedScheme
  | openBracket
  | malformedAuthority
  | missingHost
  | invalidPort
  deriving DecidableEq, Repr

def Failure.reason : Failure → String
  | .missingScheme => "missing scheme"
  | .unsupportedScheme => "unsupported scheme"
  | .openBracket => "unterminated IPv6 host"
  | .malformedAuthority => "malformed authority"
  | .missingHost => "missing host"
  | .invalidPort => "invalid port"

def Failure.toTransport (text : Bytes) (e : Failure) : TransportError :=
  ⟨.invalidRequest, utf8 e.reason ++ utf8 ": '" ++ text ++ utf8 "'"⟩

def schemeMark : Bytes := utf8 "://"

/-- Host and port as a request names them: an address with colons in brackets, and no port where it
is the usual one. -/
def hostHeader (u : Url) : Bytes :=
  let host := if u.host.any (· == 58) then utf8 "[" ++ u.host ++ utf8 "]" else u.host
  if u.port = u.scheme.defaultPort then host else host ++ utf8 ":" ++ Text.ofNat u.port

def render (u : Url) : Bytes := u.scheme.name ++ schemeMark ++ u.hostHeader ++ u.target

def withoutFragment (s : Bytes) : Bytes := s.takeWhile (· != 35)

def isAuthorityByte (b : UInt8) : Bool := b != 47 && b != 63

def targetOf : Bytes → Bytes
  | [] => utf8 "/"
  | 63 :: s => 47 :: 63 :: s
  | s => s

def withoutUser (s : Bytes) : Bytes := ((Bytes.cutLastByte? 64 s).map (·.2)).getD s

def splitAuthority : Bytes → Except Failure (Bytes × Bytes)
  | 91 :: s =>
    match Bytes.cutByte? 93 s with
    | none => .error .openBracket
    | some (host, []) => .ok (host, [])
    | some (host, 58 :: port) => .ok (host, port)
    | some _ => .error .malformedAuthority
  | s => .ok ((Bytes.cutLastByte? 58 s).getD (s, []))

def portOf (scheme : Scheme) (s : Bytes) : Except Failure Nat :=
  if s.isEmpty then .ok scheme.defaultPort
  else match Numeral.whole? 65535 s with
    | some (port + 1) => .ok (port + 1)
    | _ => .error .invalidPort

def endpoint (scheme : Scheme) (authority : Bytes) : Except Failure (Bytes × Nat) := do
  let (host, port) ← splitAuthority (withoutUser authority)
  if host.isEmpty then .error .missingHost
  else
    let port ← portOf scheme port
    .ok (host, port)

def parse (text : Bytes) : Except Failure Url := do
  let some (before, rest) := Bytes.cut? schemeMark text | .error .missingScheme
  let some scheme := Scheme.parse? before | .error .unsupportedScheme
  let rest := withoutFragment rest
  let (host, port) ← endpoint scheme (rest.takeWhile isAuthorityByte)
  .ok ⟨scheme, host, port, targetOf (rest.dropWhile isAuthorityByte)⟩

def beginsWith (s start : Bytes) : Bool := Bytes.sameText (s.take start.length) start

def isAbsolute (s : Bytes) : Bool :=
  beginsWith s (utf8 "http://") || beginsWith s (utf8 "https://")

/-- Put a path behind a base address; an absolute one stands alone. -/
def join (base path : Bytes) : Bytes :=
  if isAbsolute path then path
  else
    let slash := if path.head? = some 47 then [] else utf8 "/"
    Bytes.dropRightWhile (· == 47) base ++ slash ++ path

end Url

end LoadGenerator.Http
