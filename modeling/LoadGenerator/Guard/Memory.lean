import LoadGenerator.Data.Files
import LoadGenerator.Text.Numeral

namespace LoadGenerator.Memory

inductive Reading where
  | bytes (n : Nat)
  | unknown
  /-- The reading itself went wrong. -/
  | broken (message : Bytes)
  deriving DecidableEq, Repr

/-- Where the limit and the memory in use come from; readings are numbered from 0 on. -/
structure Source where
  limit : Option Nat
  usage : Nat → Reading

def leading? (s : Bytes) : Option Nat :=
  let s := Bytes.dropRightWhile (fun b => b == 10 || b == 32) s
  match Numeral.read Word.largest (s.dropWhile (· == 32)) with
  | .ok (n, _) => some n
  | .error _ => none

def field? (s : Bytes) : Option (Nat × Bytes) := (Numeral.readWord s).toOption

inductive LimitSource where
  | groupV2
  | groupV1
  | system
  deriving DecidableEq, Repr

def LimitSource.label : LimitSource → String
  | .groupV2 => "cgroup v2"
  | .groupV1 => "cgroup v1"
  | .system => "system memory"

def groupV2File : Bytes := utf8 "sys/fs/cgroup/memory.max"

def groupV1File : Bytes := utf8 "sys/fs/cgroup/memory/memory.limit_in_bytes"

def systemFile : Bytes := utf8 "proc/meminfo"

def usageFile : Bytes := utf8 "proc/self/statm"

/-- The largest number stands for no limit. -/
def groupV2Limit? (text : Bytes) : Option Nat := (leading? text).filter (· ≠ Word.largest)

/-- Numbers from 2^60 on stand for no limit. -/
def groupV1Limit? (text : Bytes) : Option Nat := (leading? text).filter (· < 1 <<< 60)

def totalOfLine? (line : Bytes) : Option Nat :=
  (List.isPrefixOf? (utf8 "MemTotal:") line).bind fun rest =>
    (field? rest).map fun (n, _) => n * 1024 % Word.count

def systemLimit? (text : Bytes) : Option Nat := (Bytes.splitOn 10 text).findSome? totalOfLine?

/-- The limit and the file it is taken from: that of the group if there is one, else the memory of
the system. -/
def detect? (fs : Files) : Option (Nat × LimitSource) :=
  let tryFile (name : Bytes) (limit? : Bytes → Option Nat) (source : LimitSource) :=
    ((fs.read? name).bind limit?).map (·, source)
  (tryFile groupV2File groupV2Limit? .groupV2).or
    ((tryFile groupV1File groupV1Limit? .groupV1).or (tryFile systemFile systemLimit? .system))

def pageSize : Nat := 4096

/-- The second number of the file counts the pages in use. -/
def usage? (fs : Files) : Option Nat := do
  let text ← fs.read? usageFile
  let (_, rest) ← field? text
  let (pages, _) ← field? rest
  some (pages * pageSize % Word.count)

def ofFiles (fs : Files) : Source :=
  ⟨(detect? fs).map (·.1), fun _ => match usage? fs with
    | some n => .bytes n
    | none => .unknown⟩

end LoadGenerator.Memory
