import RelaxSchema.Content.Expression

/-!
# Schemas

A schema has an entry for each element: its type, its attribute names and its compiled content. It
is built from parts by `Schema.ofElements`, which checks that the start element is among them.
-/

namespace RelaxSchema

/-- How the content of an element is treated. -/
inductive ElementType where
  /-- The content is validated. -/
  | element
  /-- The content is validated, and may be empty where text could stand. -/
  | text
  /-- The content follows another schema and is not looked at. -/
  | external
  /-- The content is not described and is not looked at. -/
  | notImplemented
  deriving DecidableEq, Repr

namespace ElementType

/-- The name of a type. -/
def name : ElementType → String
  | element => "element"
  | text => "text"
  | external => "external"
  | notImplemented => "not-implemented"

/-- The type of a name. -/
def ofName? : String → Option ElementType
  | "element" => some element
  | "text" => some text
  | "external" => some external
  | "not-implemented" => some notImplemented
  | _ => none

theorem ofName?_name (type : ElementType) : ofName? type.name = some type := by
  cases type <;> rfl

/-- Whether the content of elements of the type is validated. -/
def validatesContent : ElementType → Bool
  | element => true
  | text => true
  | external => false
  | notImplemented => false

theorem validatesContent_iff {type : ElementType} :
    type.validatesContent = true ↔ type = element ∨ type = text := by
  cases type <;> simp [validatesContent]

end ElementType

/-- What a schema says about one element. -/
structure ElementSchema where
  /-- The type. -/
  type : ElementType
  /-- The names of the attributes. -/
  attributes : List String
  /-- The content. -/
  expression : Expression
  deriving Repr

namespace ElementSchema

/-- The name of the element, which is that of its expression. -/
def name (element : ElementSchema) : String := element.expression.name

/-- The entry for an element of a name, which must not be empty and must be that of the
expression. -/
def create (name : String) (type : ElementType) (attributes : List String)
    (expression : Expression) : Except Error ElementSchema :=
  if name.isEmpty then .error (.schema .nameMissing)
  else if expression.name ≠ name then
    .error (.schema (.foreignExpression name expression.name))
  else .ok ⟨type, distinct attributes, expression⟩

/-- Whether the content may hold a token. -/
def isAllowed (element : ElementSchema) (token : String) : Bool :=
  element.expression.isAllowed token

/-- Whether the content may hold character data. -/
def isTextAllowed (element : ElementSchema) : Bool := element.isAllowed textToken

/-- The name and the written form of the content. -/
def structureText (element : ElementSchema) : String :=
  element.name ++ " ::= " ++ element.expression.model.render

end ElementSchema

/-- The compiled form of a grammar. -/
structure Schema where
  /-- The elements in the order of the grammar. -/
  elements : Catalogue ElementSchema
  /-- The element that a document begins with. -/
  start : String
  /-- The start element is among the elements. -/
  startDeclared : elements.contains start = true

namespace Schema

/-- The schema of some elements. -/
def ofElements (elements : Catalogue ElementSchema) (start : String) : Except Error Schema :=
  if declared : elements.contains start = true then .ok ⟨elements, start, declared⟩
  else .error (.schema (.startUndeclared start))

/-- What the schema says about elements of a name. -/
def find? (schema : Schema) (name : String) : Option ElementSchema := schema.elements.find? name

/-- The number of elements. -/
def size (schema : Schema) : Nat := schema.elements.size

end Schema

end RelaxSchema
