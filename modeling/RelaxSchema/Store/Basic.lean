import RelaxSchema.Error
import RelaxSchema.Catalogue
import RelaxSchema.Store.Path

/-!
# File stores

Where files come from: a test whether a path is that of a file, and its text or its bytes. A memory
store keeps texts under the normal forms of their paths, so all spellings of a path name the same
file.
-/

namespace RelaxSchema

/-- Access to grammar files. -/
structure FileStore where
  /-- Whether there is a file under a path. -/
  isFile : String → Bool
  /-- The text of the file under a path. -/
  read : String → Except Error String

/-! ### Bytes -/

/-- Access to files of any content. -/
structure ByteStore where
  /-- Whether there is a file under a path. -/
  isFile : String → Bool
  /-- The content of the file under a path. -/
  bytes : String → Except FileFault (List UInt8)

namespace ByteStore

/-- The text of the file under a path. -/
def text (store : ByteStore) (path : String) : Except FileFault String := do
  let content ← store.bytes path
  match String.fromUTF8? ⟨content.toArray⟩ with
  | some text => .ok text
  | none => .error .notText

/-- Access to the files as grammar files. -/
def toStore (store : ByteStore) : FileStore where
  isFile := store.isFile
  read path := (store.text path).mapError Error.file

end ByteStore

/-! ### Memory -/

/-- Texts under normal paths. -/
abbrev MemoryStore := Catalogue String

namespace MemoryStore

/-- Puts a text under a path, in the place of what was there. -/
def put (store : MemoryStore) (path text : String) : MemoryStore :=
  Catalogue.insert store (Path.normalise path) text

/-- The text under a path. -/
def text? (store : MemoryStore) (path : String) : Option String :=
  Catalogue.find? store (Path.normalise path)

/-- The texts of a list, put in from left to right. -/
def ofFiles (files : List (String × String)) : MemoryStore :=
  files.foldl (fun store file => store.put file.1 file.2) .empty

/-- Access to the texts. -/
def toStore (store : MemoryStore) : FileStore where
  isFile path := (store.text? path).isSome
  read path :=
    match store.text? path with
    | some text => .ok text
    | none => .error (.resolution (.noSuchFile path))

end MemoryStore

end RelaxSchema
