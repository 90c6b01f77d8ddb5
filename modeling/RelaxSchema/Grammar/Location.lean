import RelaxSchema.Store.Basic

/-!
# Locations

Where a grammar is read from, and how the address in an include is looked up: as it is, then from
the directory of the including file, then from the search directories. The first candidate that is
a file is taken.
-/

namespace RelaxSchema

/-- Where a grammar is read from. -/
inductive Location where
  /-- A file. -/
  | file (path : String)
  /-- A text that is given directly. -/
  | inline (text : String)
  deriving DecidableEq, Repr

namespace Location

/-- The location in messages. -/
def display : Location → String
  | file path => path
  | inline _ => "<inline grammar>"

/-- The directory that the addresses in includes are relative to. -/
def baseDirectory : Location → String
  | file path => Path.parent path
  | inline _ => "."

/-- Whether the location is a file. -/
def isFile : Location → Bool
  | file _ => true
  | inline _ => false

/-- The text at a location. -/
def text (store : FileStore) : Location → Except Error String
  | file path => store.read path
  | inline text => .ok text

end Location

/-- The paths that an address may stand for, in the order in which they are tried. -/
def candidates (href : String) (directory : Option String) (searchDirectories : List String) :
    List String :=
  href :: (directory.toList ++ searchDirectories).map fun directory => Path.join directory href

/-- The path of the file that an address stands for. -/
def lookUp? (store : FileStore) (href : String) (directory : Option String)
    (searchDirectories : List String) : Option String :=
  (candidates href directory searchDirectories).find? store.isFile

end RelaxSchema
