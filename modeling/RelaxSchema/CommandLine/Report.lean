import RelaxSchema.Error

/-!
# Reports

What a run of the program says. A command ends in a report or in a fault. A report may hold a file
to write; its text is printed only if the file could be written, while its warnings are printed in
any case.
-/

namespace RelaxSchema.CommandLine

/-- The name of the program. -/
def programName : String := "rngschema"

/-- The version of the program. -/
def versionNumber : String := "0.1.0"

/-- How the program is used. -/
def usage : String :=
  "Usage: " ++ programName ++ " [--strict] <COMMAND>\n\n" ++
  "Commands:\n" ++
  "  compile <GRAMMAR> [-I <DIR>]... [-o <FILE>] [--issues]\n" ++
  "  validate -s <SCHEMA> <FILE> [-I <DIR>]...\n" ++
  "  inspect <SCHEMA> [-I <DIR>]... [-e <ELEMENT>] [-j]\n" ++
  "  check <SCHEMA> [-I <DIR>]...\n"

/-- What the program prints and the code that it ends with. -/
structure Outcome where
  /-- The code. -/
  code : Nat
  /-- The standard output. -/
  output : String
  /-- The standard error output. -/
  errors : String
  deriving DecidableEq, Repr

/-! ### Faults -/

/-- Why the program does nothing. -/
inductive Fault where
  /-- The arguments are wrong. -/
  | usage
  /-- The grammar, the schema or the document is refused. -/
  | refused (error : Error)
  /-- A file named in the arguments cannot be read or written. -/
  | file (fault : FileFault)
  /-- The schema has no such element. -/
  | unknownElement (name : String)
  deriving DecidableEq, Repr

namespace Fault

/-- The wording of a fault. -/
def message : Fault → String
  | usage => CommandLine.usage
  | refused error => error.message
  | file fault => fault.message
  | unknownElement name => s!"Element <{name}> not found in schema"

/-- The path that was asked for and has not been visited. -/
def unvisited? : Fault → Option String
  | refused (.file (.unvisited path)) => some path
  | file (.unvisited path) => some path
  | _ => none

/-- What the program prints in view of a fault. -/
def outcome : Fault → Outcome
  | usage => ⟨2, "", CommandLine.usage⟩
  | fault => ⟨1, "", "Error: " ++ fault.message ++ "\n"⟩

end Fault

/-! ### Reports -/

/-- A text to write to a file. -/
structure Writing where
  /-- The path of the file. -/
  path : String
  /-- The text. -/
  text : String
  deriving DecidableEq, Repr

/-- What a command has come to. -/
structure Report where
  /-- The warnings. -/
  warnings : List String := []
  /-- The file to write. -/
  writing : Option Writing := none
  /-- The text to print. -/
  text : String
  /-- Whether the answer is a good one. -/
  success : Bool := true
  deriving DecidableEq, Repr

namespace Report

/-- The text of the warnings. -/
def warningText (report : Report) : String :=
  String.join (report.warnings.map fun warning => "warning: " ++ warning ++ "\n")

/-- What the program prints once the file is written, or cannot be written. -/
def outcome (report : Report) (written : Except FileFault Unit) : Outcome :=
  match written with
  | .ok () => ⟨if report.success then 0 else 1, report.text, report.warningText⟩
  | .error fault =>
    let failed := (Fault.file fault).outcome
    { failed with errors := report.warningText ++ failed.errors }

end Report

end RelaxSchema.CommandLine
