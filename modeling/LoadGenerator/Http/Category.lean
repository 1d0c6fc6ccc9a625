import LoadGenerator.Http.Message

namespace LoadGenerator.Http

inductive ErrorCategory where
  | client
  | server
  | network
  | timeout
  | tls
  | other
  deriving DecidableEq, Repr

namespace ErrorCategory

def all : List ErrorCategory := [.client, .server, .network, .timeout, .tls, .other]

def label : ErrorCategory → String
  | .client => "client_error"
  | .server => "server_error"
  | .network => "network_error"
  | .timeout => "timeout_error"
  | .tls => "tls_error"
  | .other => "other_error"

def description : ErrorCategory → String
  | .client => "HTTP 4xx Client Errors"
  | .server => "HTTP 5xx Server Errors"
  | .network => "Network/Connection Errors"
  | .timeout => "Request Timeout Errors"
  | .tls => "TLS/SSL Errors"
  | .other => "Other/Unknown Errors"

def ofStatus? (status : Nat) : Option ErrorCategory :=
  if 100 ≤ status ∧ status < 400 then none
  else if 400 ≤ status ∧ status < 500 then some .client
  else if 500 ≤ status ∧ status < 600 then some .server
  else some .other

def ofTransport : TransportKind → ErrorCategory
  | .dns => .network
  | .connect => .network
  | .protocol => .network
  | .timeout => .timeout
  | .tls => .tls
  | .invalidRequest => .other
  | .unlisted _ => .other

end ErrorCategory

end LoadGenerator.Http
