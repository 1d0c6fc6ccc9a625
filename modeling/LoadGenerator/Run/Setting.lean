import LoadGenerator.Guard.Memory
import LoadGenerator.Http.Client
import LoadGenerator.Plan.Basic

namespace LoadGenerator.Run

open Http

inductive Moment where
  | request (n : Nat)
  | reading (n : Nat)
  deriving DecidableEq, Repr

structure Setting (α : Type) where
  client : Client
  closing : Option Bytes
  memory : Option Memory.Source
  news : List (Moment × Plan α)
  random : Nat → Nat
  calendar : Int
  threads : Nat

namespace Setting

variable {α : Type}

def newsAt (s : Setting α) (m : Moment) : List (Plan α) :=
  s.news.filterMap fun (n, plan) => if n = m then some plan else none

end Setting

structure Course (α : Type) where
  setting : Setting α
  workers : Nat
  startedAt : Int
  deadline : Int

end LoadGenerator.Run
