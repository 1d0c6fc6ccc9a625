import LoadGenerator.Data.Files

namespace LoadGenerator

inductive Edit where
  | write (path content : Bytes) (time : Int)
  | replace (path content : Bytes) (time : Int)
  /-- Set the time of the last change and leave that of the last access. To set both of them is
  like writing the same content again. -/
  | retime (path : Bytes) (time : Int)
  | remove (path : Bytes)
  | makeFolder (path : Bytes)
  deriving DecidableEq, Repr

namespace Edit

def apply (fs : Files) : Edit → Files
  | .write path content time => (fs.write? path ⟨content, time⟩).getD fs
  | .replace path content time => (fs.write? path ⟨content, time⟩).getD fs
  | .retime path time =>
    match fs.find? path with
    | some f => (fs.write? path { f with modified := time }).getD fs
    | none => fs
  | .remove path => fs.remove path
  | .makeFolder path => fs.makeFolder (Files.names path)

/-- The file of which those who watch its folder are told. They ask for writes that are over, for
files moved there and for new attributes. The end of a file is none of these, and neither is a new
time of its last change: only both times together count as attributes. -/
def announces? (fs : Files) : Edit → Option Path
  | .write path _ _ => fs.resolve? path
  | .replace path _ _ => fs.resolve? path
  | _ => none

def applyAll (fs : Files) (edits : List Edit) : Files := edits.foldl apply fs

def anyAnnounces (path : Path) : Files → List Edit → Bool
  | _, [] => false
  | fs, e :: edits => e.announces? fs == some path || anyAnnounces path (e.apply fs) edits

end Edit

end LoadGenerator
