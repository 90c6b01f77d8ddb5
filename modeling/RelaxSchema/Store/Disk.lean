import RelaxSchema.Store.Basic

/-!
# Directories

A tree of directories and files as a disk has it, seen from a working directory. Paths are walked
part by part, so every directory on the way must exist. What is above the working directory is
unknown and holds no file.
-/

namespace RelaxSchema

/-- The directories and files below the working directory. -/
structure Disk where
  /-- The directories, each as the parts of its path. The working directory is not listed. -/
  directories : List (List String) := []
  /-- The files with their contents, each under the parts of its path. -/
  files : List (List String × List UInt8) := []

namespace Disk

/-- A place that a walk comes to. -/
inductive Place where
  /-- A directory at or below the working directory. -/
  | directory (parts : List String)
  /-- A file. -/
  | file (parts : List String) (content : List UInt8)
  /-- A directory above the working directory. -/
  | outside

/-- Whether a directory exists. -/
def hasDirectory (disk : Disk) (parts : List String) : Bool :=
  parts.isEmpty || disk.directories.contains parts

/-- Walks one part further. -/
def step (disk : Disk) (place : Place) (part : String) : Except FileFault Place :=
  match place with
  | .file _ _ => .error .notDirectory
  | .outside => if Path.isVoid part.toList || part = ".." then .ok .outside else .error .missing
  | .directory parts =>
    if Path.isVoid part.toList then .ok place
    else if part = ".." then .ok (if parts.isEmpty then .outside else .directory parts.dropLast)
    else
      let next := parts ++ [part]
      if disk.hasDirectory next then .ok (.directory next)
      else
        match disk.files.lookup next with
        | some content => .ok (.file next content)
        | none => .error .missing

/-- The parts of a path, those that say nothing included. -/
def partsOf (path : String) : List String := (Path.split path.toList).map String.ofList

/-- The place of a path. -/
def locate (disk : Disk) (path : String) : Except FileFault Place :=
  if path.isEmpty || Path.isAbsolute path then .error .missing
  else (partsOf path).foldlM disk.step (.directory [])

/-- The content of the file under a path. -/
def bytes (disk : Disk) (path : String) : Except FileFault (List UInt8) := do
  match ← disk.locate path with
  | .file _ content => .ok content
  | .directory _ => .error .isDirectory
  | .outside => .error .isDirectory

/-- Whether there is a file under a path. -/
def isFile (disk : Disk) (path : String) : Bool :=
  match disk.locate path with
  | .ok (.file _ _) => true
  | _ => false

/-- Puts a content into the place of the file with the given parts, or adds the file. -/
def putFile (disk : Disk) (parts : List String) (content : List UInt8) : Disk :=
  { disk with files := (parts, content) :: disk.files.filter fun file => file.1 ≠ parts }

/-- Writes a file, whose directory must exist. A path that ends in a slash can only be that of a
directory. -/
def write (disk : Disk) (path : String) (content : List UInt8) : Except FileFault Disk :=
  if path.isEmpty || Path.isAbsolute path then .error .missing
  else do
    let parts := (partsOf path).reverse.dropWhile fun part => part.isEmpty
    let name := parts.headD ""
    let directory ← parts.tail.reverse.foldlM disk.step (.directory [])
    match directory with
    | .file _ _ => .error .notDirectory
    | .outside => .error .isDirectory
    | .directory parents =>
      let target := parents ++ [name]
      -- The last part must be able to name a file.
      if path.endsWith "/" || name = "." || name = ".." || disk.hasDirectory target then
        .error .isDirectory
      else .ok (disk.putFile target content)

/-- Adds a directory. -/
def addDirectory (disk : Disk) (parts : List String) : Disk :=
  if disk.hasDirectory parts then disk
  else { disk with directories := parts :: disk.directories }

/-- Walks one part further below the working directory and adds the directory if it is missing. -/
def enter (visit : Disk × List String) (part : String) : Disk × List String :=
  let (disk, parts) := visit
  if Path.isVoid part.toList then visit
  else if part = ".." then (disk, parts.dropLast)
  else (disk.addDirectory (parts ++ [part]), parts ++ [part])

/-- Adds a file and the directories on the way to it. -/
def add (disk : Disk) (path : String) (content : List UInt8) : Disk :=
  let parts := partsOf path
  let (disk, directory) := parts.dropLast.foldl enter (disk, [])
  disk.putFile (directory ++ [parts.getLast?.getD ""]) content

/-- Access to the files. -/
def toBytes (disk : Disk) : ByteStore where
  isFile := disk.isFile
  bytes := disk.bytes

end Disk

end RelaxSchema
