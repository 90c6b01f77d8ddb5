import RelaxSchema.Json.Reader
import RelaxSchema.Json.Printer

/-!
# Compact documents

The outer shape of the compact format: a table of literals, the rank of the start element, and a row
for each element with the rank of its name, a type code, the ranks of its attributes and its
content, which is any JSON here. The members `literals` and `schema` are the object's own, in either
order and once each; others are skipped. A list of the two values stands for the object as well.
-/

namespace RelaxSchema

/-- An element in the compact format. -/
structure CompactElement where
  /-- The rank of the name. -/
  name : Nat
  /-- The type code. -/
  code : String
  /-- The ranks of the attribute names. -/
  attributes : List Nat
  /-- The content. -/
  content : Json

/-- A schema in the compact format. -/
structure CompactDocument where
  /-- The names by their ranks. -/
  literals : List String
  /-- The rank of the start element. -/
  start : Nat
  /-- The elements. -/
  elements : List CompactElement

/-! ### Writing -/

/-- An element as JSON. -/
def CompactElement.toJson (element : CompactElement) : Json :=
  .array [.nat element.name, .string element.code, .array (element.attributes.map .nat),
    element.content]

namespace CompactDocument

/-- A schema as JSON. -/
def toJson (document : CompactDocument) : Json :=
  .object [("literals", .array (document.literals.map .string)),
    ("schema", .array [.nat document.start, .array (document.elements.map (·.toJson))])]

/-- A schema as text. -/
def text (document : CompactDocument) : String := document.toJson.render

end CompactDocument

/-! ### Reading values -/

/-- The element that a value stands for. -/
def CompactElement.ofJson? : Json → Option CompactElement
  | .array [name, code, attributes, content] => do
    let name ← name.natural?
    let code ← code.string?
    let attributes ← attributes.items?
    let attributes ← attributes.mapM Json.natural?
    some ⟨name, code, attributes, content⟩
  | _ => none

namespace CompactDocument

/-- The schema that the two values stand for. -/
def ofValues? (literals schema : Json) : Option CompactDocument := do
  let literals ← literals.items?
  let literals ← literals.mapM Json.string?
  match schema with
  | .array [start, elements] =>
    let start ← start.natural?
    let elements ← elements.items?
    let elements ← elements.mapM CompactElement.ofJson?
    some ⟨literals, start, elements⟩
  | _ => none

/-! ### Reading text -/

/-- The members of the object that have been read. -/
structure Members where
  /-- The value of the member `literals`. -/
  literals : Option Json := none
  /-- The value of the member `schema`. -/
  schema : Option Json := none

/-- Takes the value of a member, which must be new if it is one of the object's own. -/
def takeMember? (members : Members) (name : String) (input : List Char) :
    Option (Members × List Char) :=
  let depth := Json.maxDepth - 1
  match name with
  | "literals" => do
    let (value, rest) ← Json.takeValue? depth input
    if members.literals.isSome then none else some ({ members with literals := some value }, rest)
  | "schema" => do
    let (value, rest) ← Json.takeValue? depth input
    if members.schema.isSome then none else some ({ members with schema := some value }, rest)
  | _ => do
    let rest ← Json.skip? input
    some (members, rest)

/-- Takes the members of the object up to its closing bracket. -/
def takeMembers? : Nat → Members → List Char → Option (Members × List Char)
  | 0, _, _ => none
  | fuel + 1, members, input => do
    let input := Json.trimFront input
    let (name, rest) ← Json.takeQuoted? .full (input.length + 1) input
    match Json.trimFront rest with
    | ':' :: rest =>
      let (members, rest) ← takeMember? members name rest
      match Json.trimFront rest with
      | ',' :: rest => takeMembers? fuel members rest
      | '\x7d' :: rest => some (members, rest)
      | _ => none
    | _ => none

/-- Takes a schema. -/
def take? (input : List Char) : Option (CompactDocument × List Char) :=
  match Json.trimFront input with
  -- The members are read one by one, since only their own values are looked at.
  | '\x7b' :: rest => do
    let (members, rest) ← takeMembers? rest.length {} rest
    let literals ← members.literals
    let schema ← members.schema
    let document ← ofValues? literals schema
    some (document, rest)
  | input => do
    let (value, rest) ← Json.takeValue? Json.maxDepth input
    match value with
    | .array [literals, schema] =>
      let document ← ofValues? literals schema
      some (document, rest)
    | _ => none

/-- The schema that a text stands for. -/
def ofText? (text : String) : Option CompactDocument := do
  let (document, rest) ← take? text.toList
  if (Json.trimFront rest).isEmpty then some document else none

end CompactDocument

end RelaxSchema
