import RelaxSchema.CommandLine.Run
import RelaxSchema.Store.Snapshot

/-!
# The program

Reads the files that the answer needs, writes the file that it asks for, and prints. The answer is
worked out from a snapshot of the files; as long as it asks for a path that has not been visited,
the path is visited and the answer is worked out again.
-/

namespace RelaxSchema.CommandLine

/-- The fault of a failure to open a file. -/
def faultOf : IO.Error → FileFault
  | .permissionDenied _ _ _ => .denied
  | .inappropriateType _ code _ => if code = 21 then .isDirectory else .notDirectory
  | _ => .missing

/-- Looks at a path. -/
def visit (path : String) : IO Finding := do
  match ← (IO.FS.readBinFile path).toBaseIO with
  | .ok content => return ⟨true, .ok content.toList⟩
  | .error failure =>
    let fault := faultOf failure
    return ⟨fault = .denied, .error fault⟩

/-- The answer to the arguments, with visits to all paths that it asks for. -/
partial def respondFrom (snapshot : Snapshot) (arguments : List String) :
    IO (Except Fault Report) := do
  match respond snapshot.toBytes arguments with
  | .ok report => return .ok report
  | .error fault =>
    match fault.unvisited? with
    | none => return .error fault
    | some path => respondFrom (snapshot.insert path (← visit path)) arguments

/-- Writes a file. -/
def write (writing : Writing) : IO (Except FileFault Unit) := do
  match ← (IO.FS.writeFile writing.path writing.text).toBaseIO with
  | .ok () => return .ok ()
  | .error failure => return .error (faultOf failure)

/-- Runs the program. -/
def run (arguments : List String) : IO Outcome := do
  match ← respondFrom .empty arguments with
  | .error fault => return fault.outcome
  | .ok report =>
    let written ← match report.writing with
      | none => pure (.ok ())
      | some writing => write writing
    return report.outcome written

end RelaxSchema.CommandLine

/-- The program. -/
def main (arguments : List String) : IO UInt32 := do
  let outcome ← RelaxSchema.CommandLine.run arguments
  (← IO.getStdout).putStr outcome.output
  (← IO.getStderr).putStr outcome.errors
  return outcome.code.toUInt32
