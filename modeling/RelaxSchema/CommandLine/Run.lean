import RelaxSchema.Compact.Schema
import RelaxSchema.CommandLine.Arguments
import RelaxSchema.CommandLine.Report
import RelaxSchema.Document.Reader
import RelaxSchema.Schema.Compilation
import RelaxSchema.Schema.Issues
import RelaxSchema.Schema.Validation
import RelaxSchema.Store.Disk

/-!
# Runs

What each command does, given access to the files. `respond` answers the arguments of the program;
`runOn` also writes the file that the answer asks for, on a disk that is a value.
-/

namespace RelaxSchema.CommandLine

/-- Several lines. -/
def lines (texts : List String) : String := String.join (texts.map fun text => text ++ "\n")

/-! ### Schemas -/

namespace Invocation

/-- The limits of an invocation. -/
def limits (invocation : Invocation) : Limits := if invocation.strict then .strict else {}

/-- The schema of a file: a compact one if the name says so, or else a grammar to compile. -/
def schema (invocation : Invocation) (store : ByteStore) (path : String) : Except Fault Schema :=
  if Path.hasExtension path "json" then do
    let text ← (store.text path).mapError Fault.file
    (Schema.ofText invocation.limits text).mapError Fault.refused
  else
    let loader : Loader := ⟨store.toStore, invocation.searchDirectories, invocation.limits⟩
    (loader.compileEntry path).mapError Fault.refused

end Invocation

/-! ### Views -/

/-- The lines that show an element. -/
def elementLines (element : ElementSchema) : List String :=
  [element.structureText, "  type: " ++ element.type.name] ++
    if element.attributes.isEmpty then []
    else ["  attributes: " ++ ", ".intercalate element.attributes]

/-- The lines that show a schema before its elements. -/
def schemaLines (schema : Schema) : List String :=
  [programName ++ " v" ++ versionNumber, "", "Start element: " ++ schema.start,
    "Elements: " ++ toString schema.size, ""]

/-- An element as JSON. -/
def elementJson (element : ElementSchema) : Json :=
  .object [("attributes", .array (element.attributes.map .string)),
    ("content", .string element.expression.model.render),
    ("name", .string element.name),
    ("type", .string element.type.name)]

/-- Some elements of a schema as JSON. -/
def selectionJson (schema : Schema) (selected : List ElementSchema) : Json :=
  .object [("elements", .array (selected.map elementJson)), ("start", .string schema.start)]

/-- The elements to show: the one of the name, or all. -/
def selection (schema : Schema) : Option String → Except Fault (List ElementSchema)
  | none => .ok schema.elements.values
  | some name =>
    match schema.find? name with
    | some element => .ok [element]
    | none => .error (.unknownElement name)

/-- The text that shows elements of a schema. -/
def selectionText (schema : Schema) (element : Option String) (selected : List ElementSchema) :
    String :=
  lines ((if element.isNone then schemaLines schema else []) ++ selected.flatMap elementLines)

/-! ### Commands -/

/-- What the compilation of a schema comes to. -/
def compileReport (schema : Schema) (output : Option String) (issues : Bool) :
    Except Fault Report := do
  let warnings := if issues then schema.issues.map Issue.message else []
  let text ← schema.toText.mapError Fault.refused
  match output with
  | none => .ok { warnings := warnings, text := lines [text] }
  | some path =>
    let size := schema.size
    .ok { warnings := warnings
          writing := some ⟨path, text⟩
          text := lines [s!"Compiled {size} elements into {path}"] }

/-- What the verdict on a document comes to. -/
def validationReport (verdict : Verdict) : Report :=
  if verdict.ok then { text := lines ["✓ Document is valid"] }
  else
    { text := lines (["✗ Document is invalid", "", "Errors:"] ++
        verdict.violations.map fun violation => "  - " ++ violation.display)
      success := false }

/-- What the issues of a schema come to. -/
def issueReport (issues : List Issue) : Report :=
  if issues.isEmpty then { text := lines ["✓ No issues found"] }
  else
    let count := issues.length
    { text := lines (s!"{count} issue(s):" :: issues.map fun issue => "  - " ++ issue.message) }

/-- What an invocation comes to. -/
def Invocation.report (invocation : Invocation) (store : ByteStore) : Except Fault Report := do
  match invocation.command with
  | .compile grammar output issues =>
    let schema ← invocation.schema store grammar
    compileReport schema output issues
  | .validate path document =>
    let schema ← invocation.schema store path
    let content ← (store.bytes document).mapError Fault.file
    let root ← (Document.read invocation.limits content).mapError Fault.refused
    let verdict ← (schema.documentVerdict root).mapError Fault.refused
    .ok (validationReport verdict)
  | .inspect path element json =>
    let schema ← invocation.schema store path
    let selected ← selection schema element
    if json then .ok { text := lines [(selectionJson schema selected).renderIndented 0] }
    else .ok { text := selectionText schema element selected }
  | .check path =>
    let schema ← invocation.schema store path
    .ok (issueReport schema.issues)

/-! ### The program -/

/-- The answer to the arguments of the program. -/
def respond (store : ByteStore) (arguments : List String) : Except Fault Report :=
  match request? arguments with
  | none => .error .usage
  | some .version => .ok { text := lines [programName ++ " " ++ versionNumber] }
  | some .help => .ok { text := usage }
  | some (.run invocation) => invocation.report store

/-- A run of the program on a disk, and the disk after it. -/
def runOn (disk : Disk) (arguments : List String) : Outcome × Disk :=
  match respond disk.toBytes arguments with
  | .error fault => (fault.outcome, disk)
  | .ok report =>
    match report.writing with
    | none => (report.outcome (.ok ()), disk)
    | some writing =>
      match disk.write writing.path writing.text.toUTF8.toList with
      | .ok disk => (report.outcome (.ok ()), disk)
      | .error fault => (report.outcome (.error fault), disk)

end RelaxSchema.CommandLine
