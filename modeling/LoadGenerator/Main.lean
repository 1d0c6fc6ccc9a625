import LoadGenerator.Program
import LoadGenerator.Scalar.Double

namespace LoadGenerator

namespace Main

open Http

def target : Client := fun _ _ => ⟨1000000, .ok (.ok ⟨200, [], []⟩)⟩

def draws (seed n : Nat) : Nat := (seed + n) * 6364136223846793005 % Word.count / 2048

def spelled (path : Bytes) : String := (String.fromUTF8? ⟨path.toArray⟩).getD ""

def take (fs : Files) (path source : Bytes) : IO Files := do
  try
    let content ← IO.FS.readBinFile (spelled source)
    pure (fs.create path ⟨content.toList, 0⟩)
  catch _ => pure fs

def takeAll (fs : Files) (paths : List Bytes) : IO Files :=
  paths.foldlM (fun fs path => take fs path path) fs

def systemFiles : IO Files :=
  [Memory.groupV2File, Memory.groupV1File, Memory.systemFile, Memory.usageFile].foldlM
    (fun fs path => take fs path (utf8 "/" ++ path)) .empty

def gather (args : List Bytes) : IO Files := do
  let fs ← systemFiles
  match CommandLine.parse args with
  | .ok (.run { plan := some path, .. }) =>
    let fs ← take fs path path
    takeAll fs (PlanLoader.tablesOf (WrittenPath.folder path) ((fs.read? path).getD []))
  | _ => pure fs

def tell : Notice → IO Unit
  | .info line => do (← IO.getStdout).write ⟨(line ++ [10]).toArray⟩
  | .warning line => do (← IO.getStderr).write ⟨(line ++ [10]).toArray⟩

def keep (args : List Bytes) (fs : Files) : IO Unit :=
  match CommandLine.parse args with
  | .ok (.run { jsonReport := some path, .. }) =>
    match fs.find? path with
    | some f => IO.FS.writeBinFile (spelled path) ⟨f.content.toArray⟩
    | none => pure ()
  | _ => pure ()

end Main

end LoadGenerator

open LoadGenerator LoadGenerator.Main in
def main (args : List String) : IO UInt32 := do
  let args := args.map utf8
  let world : Program.World Double :=
    { name := utf8 "loadgenerator"
      files := ← gather args
      client := target
      closing := none
      random := draws (← IO.rand 0 (1 <<< 62))
      calendar := (← IO.monoNanosNow : Nat)
      threads := 1
      number x := .ofFloat x.value }
  match Program.run world args with
  | .error _ =>
    IO.eprintln "a number was expected"
    pure 2
  | .ok e =>
    e.notices.forM tell
    keep args e.files
    pure e.status.toUInt32
