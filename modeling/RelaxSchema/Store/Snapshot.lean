import RelaxSchema.Store.Basic

/-!
# Snapshots

What is known of a file system after some of its paths have been visited. A path that has not been
visited passes for a file that cannot be read, and the failure names it. Whoever asks a snapshot and
meets this failure visits the path and asks again.
-/

namespace RelaxSchema

/-- What a visit to a path finds. -/
structure Finding where
  /-- Whether there is a file. -/
  isFile : Bool
  /-- The content of the file. -/
  content : Except FileFault (List UInt8)

/-- The findings under the paths that have been visited. -/
abbrev Snapshot := Catalogue Finding

namespace Snapshot

/-- Access to what has been found. -/
def toBytes (snapshot : Snapshot) : ByteStore where
  isFile path := ((Catalogue.find? snapshot path).map Finding.isFile).getD true
  bytes path :=
    ((Catalogue.find? snapshot path).map Finding.content).getD (.error (.unvisited path))

end Snapshot

end RelaxSchema
