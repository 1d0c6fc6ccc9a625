import LoadGenerator.Text.Bytes

namespace LoadGenerator.Http

abbrev Headers := List (Bytes × Bytes)

structure Request where
  method : Bytes
  url : Bytes
  headers : Headers
  body : Option Bytes
  timeoutMs : Int
  discardBody : Bool
  deriving DecidableEq, Repr

structure Response where
  status : Nat
  headers : Headers
  body : Bytes
  deriving DecidableEq, Repr

/-- The first header of that name, in whatever case it is written. -/
def Headers.find? (headers : Headers) (name : Bytes) : Option Bytes :=
  (List.find? (fun (k, _) => Bytes.sameText k name) headers).map (·.2)

def Response.header? (r : Response) (name : Bytes) : Option Bytes := r.headers.find? name

/-- The kinds of a failure to get a response. There are six of them; `unlisted` stands for a number
that is none of theirs, which a caller can name but no client ever reports. -/
inductive TransportKind where
  | dns
  | connect
  | tls
  | timeout
  | protocol
  | invalidRequest
  | unlisted (beyond : Nat)
  deriving DecidableEq, Repr

namespace TransportKind

def label : TransportKind → String
  | .dns => "dns"
  | .connect => "connect"
  | .tls => "tls"
  | .timeout => "timeout"
  | .protocol => "protocol"
  | .invalidRequest => "invalid_request"
  | .unlisted _ => "unknown"

def number : TransportKind → Nat
  | .dns => 0
  | .connect => 1
  | .tls => 2
  | .timeout => 3
  | .protocol => 4
  | .invalidRequest => 5
  | .unlisted beyond => 6 + beyond

def isNamed : TransportKind → Bool
  | .unlisted _ => false
  | _ => true

end TransportKind

structure TransportError where
  kind : TransportKind
  message : Bytes
  deriving DecidableEq, Repr

def TransportError.text (e : TransportError) : Bytes := utf8 e.kind.label ++ utf8 ": " ++ e.message

end LoadGenerator.Http
