import LoadGenerator.Data.SortedMap

namespace LoadGenerator

abbrev Path := List Bytes

structure File where
  content : Bytes
  modified : Int
  deriving DecidableEq, Repr

structure Files where
  files : SortedMap Path File
  folders : List Path
  deriving DecidableEq, Repr

namespace Files

def empty : Files := ⟨[], []⟩

def isFolder (fs : Files) (p : Path) : Bool := p.isEmpty || fs.folders.contains p

def dot : Bytes := utf8 "."

def dotDot : Bytes := utf8 ".."

def enter (fs : Files) (p : Path) (name : Bytes) : Option Path :=
  if !fs.isFolder p then none
  else if name.isEmpty ∨ name = dot then some p
  else if name = dotDot then (if p.isEmpty then none else some p.dropLast)
  else some (p ++ [name])

def resolve? (fs : Files) (written : Bytes) : Option Path :=
  if written.isEmpty ∨ written.head? = some 47 then none
  else (Bytes.splitOn 47 written).foldlM fs.enter []

def find? (fs : Files) (written : Bytes) : Option File :=
  (fs.resolve? written).bind (SortedMap.get? fs.files)

/-- The content of a file. A folder can be opened too, and reads as an empty text. -/
def read? (fs : Files) (written : Bytes) : Option Bytes :=
  (fs.resolve? written).bind fun p =>
    if fs.isFolder p then some [] else (SortedMap.get? fs.files p).map (·.content)

def write? (fs : Files) (written : Bytes) (f : File) : Option Files :=
  (fs.resolve? written).bind fun p =>
    if fs.isFolder p then none else some { fs with files := SortedMap.insert fs.files p f }

def remove (fs : Files) (written : Bytes) : Files :=
  match fs.resolve? written with
  | some p => { fs with files := SortedMap.erase fs.files p }
  | none => fs

def makeFolder (fs : Files) (p : Path) : Files :=
  { fs with folders := (List.range p.length).map (fun n => p.take (n + 1)) ++ fs.folders }

def names (written : Bytes) : Path :=
  (Bytes.splitOn 47 written).filter fun c => !c.isEmpty && c != dot

def create (fs : Files) (written : Bytes) (f : File) : Files :=
  let p := names written
  let fs := fs.makeFolder p.dropLast
  { fs with files := SortedMap.insert fs.files p f }

end Files

namespace WrittenPath

def isRelative (p : Bytes) : Bool := p.head? != some 47

def under (folder p : Bytes) : Bytes :=
  if !isRelative p then p
  else if folder.getLast? = some 47 then folder ++ p
  else folder ++ utf8 "/" ++ p

def parent (p : Bytes) : Bytes :=
  match Bytes.cutLastByte? 47 p with
  | none => []
  | some (folder, _) =>
    let folder := Bytes.dropRightWhile (· == 47) folder
    if folder.isEmpty then utf8 "/" else folder

def folder (p : Bytes) : Bytes := if (parent p).isEmpty then Files.dot else parent p

end WrittenPath

end LoadGenerator
