import LoadGenerator.Text.Bytes

namespace LoadGenerator

inductive Notice where
  | info (line : Bytes)
  | warning (line : Bytes)
  deriving DecidableEq, Repr

namespace Notice

def infoLine? : Notice → Option Bytes
  | .info line => some line
  | .warning _ => none

def warningLine? : Notice → Option Bytes
  | .info _ => none
  | .warning line => some line

def lines (ls : List Bytes) : Bytes := ls.flatMap (· ++ utf8 "\n")

def output (notices : List Notice) : Bytes := lines (notices.filterMap infoLine?)

def errors (notices : List Notice) : Bytes := lines (notices.filterMap warningLine?)

end Notice

end LoadGenerator
