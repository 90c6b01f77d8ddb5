import RelaxSchema.Schema.Validation

/-!
# Insertion positions

Where a new child element can be put so that the content of an element is complete and in order.
Positions count child nodes of every kind, blank text included.
-/

namespace RelaxSchema.ElementSchema

/-- Whether the content is right with a new child of a name at a position. -/
def acceptsInsertion (schema : ElementSchema) (element : Element) (name : String)
    (position : Nat) : Bool :=
  schema.expression.accepts (contentTokens (element.children.take position) ++
    name :: contentTokens (element.children.drop position))

/-- The positions before, between and behind the child nodes. -/
def positions (element : Element) : List Nat := List.range (element.children.length + 1)

/-- The first position for a new child of a name. -/
def firstPosition? (schema : ElementSchema) (element : Element) (name : String) : Option Nat :=
  (positions element).find? (schema.acceptsInsertion element name)

/-- The last position for a new child of a name. -/
def lastPosition? (schema : ElementSchema) (element : Element) (name : String) : Option Nat :=
  (positions element).reverse.find? (schema.acceptsInsertion element name)

end RelaxSchema.ElementSchema
