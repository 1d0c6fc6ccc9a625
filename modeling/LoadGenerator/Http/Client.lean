import LoadGenerator.Http.Message

namespace LoadGenerator.Http

/-- What a request came to: a response, or an error without one. -/
abbrev Reply := Except TransportError Response

structure Answer where
  latency : Nat
  /-- The reply, unless the client itself breaks down with a message. -/
  reply : Except Bytes Reply

/-- A client answers every request; the requests are numbered from 0 on. -/
abbrev Client := Nat → Request → Answer

namespace Client

def ofAnswers (answers : List Answer) : Client := fun n _ =>
  (answers[n % answers.length]?).getD ⟨0, .error (utf8 "there is no answer")⟩

end Client

end LoadGenerator.Http
