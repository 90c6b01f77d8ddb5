import RelaxSchema.Compact.Basic
import RelaxSchema.Compact.Content

/-!
# Schemas in the compact format

Writing a schema replaces its names by their ranks. Reading looks the names up again and compiles
the contents anew, so that a schema read back has the same automata as the one written.
-/

namespace RelaxSchema

namespace ElementType

/-- The code of a type. -/
def code : ElementType → String
  | text => "t"
  | element => "e"
  | external => "x"
  | notImplemented => "n"

/-- The type of a code. -/
def ofCode (code : String) : Except Error ElementType :=
  match code with
  | "t" => .ok text
  | "e" => .ok element
  | "x" => .ok external
  | "n" => .ok notImplemented
  | code => .error (.compact (.unknownTypeCode code))

theorem ofCode_code (type : ElementType) : ofCode type.code = .ok type := by
  cases type <;> rfl

end ElementType

/-! ### Writing -/

/-- An element in the compact format. -/
def ElementSchema.toCompact (table : List String) (element : ElementSchema) :
    Except Error CompactElement := do
  let attributes ← element.attributes.mapM (rankOf table)
  let name ← rankOf table element.name
  let content ← element.expression.model.encode table
  .ok ⟨name, element.type.code, attributes, content⟩

namespace Schema

/-- A schema in the compact format. -/
def toCompact (schema : Schema) : Except Error CompactDocument := do
  let table := schema.literalTable
  let elements ← schema.elements.values.mapM (ElementSchema.toCompact table)
  let start ← rankOf table schema.start
  .ok ⟨table, start, elements⟩

/-- The text of a schema. -/
def toText (schema : Schema) : Except Error String := CompactDocument.text <$> schema.toCompact

end Schema

/-! ### Reading -/

/-- The name of an element and what the schema says about it. -/
def CompactElement.resolve (limits : Limits) (table : List String) (element : CompactElement) :
    Except Error ElementSchema := do
  let name ← literalAt table element.name
  let attributes ← element.attributes.mapM (literalAt table)
  let model ← Model.decode table element.content
  let expression ← Expression.compile name model limits
  let type ← ElementType.ofCode element.code
  ElementSchema.create name type attributes expression

namespace CompactDocument

/-- Resolves an element and enters it. -/
def enter (limits : Limits) (table : List String) (entries : Catalogue ElementSchema)
    (element : CompactElement) : Except Error (Catalogue ElementSchema) := do
  let entry ← element.resolve limits table
  .ok (entries.insert entry.name entry)

/-- The schema that a compact one stands for. -/
def toSchema (limits : Limits) (document : CompactDocument) : Except Error Schema := do
  let start ← literalAt document.literals document.start
  let elements ← document.elements.foldlM (enter limits document.literals) .empty
  Schema.ofElements elements start

end CompactDocument

namespace Schema

/-- The schema that a text stands for. -/
def ofText (limits : Limits) (text : String) : Except Error Schema :=
  match CompactDocument.ofText? text with
  | none => .error .json
  | some document => document.toSchema limits

end Schema

end RelaxSchema
