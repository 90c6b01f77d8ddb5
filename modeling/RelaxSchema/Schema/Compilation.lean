import RelaxSchema.Grammar.Flattening
import RelaxSchema.Grammar.AttributeNames
import RelaxSchema.Grammar.Includes
import RelaxSchema.Grammar.ContentModel
import RelaxSchema.Schema.Basic

/-!
# Compilation of grammars

From the tree of a grammar to a schema: the definitions are registered, the grammar is flattened,
and the content of each element is compiled. A loader does this for a grammar that is read from a
file or given as text, after it has expanded its includes.
-/

namespace RelaxSchema

namespace FlatElement

/-- The content model of an element; one that is not implemented has no content. -/
def model (element : FlatElement) : Except Error Model :=
  match element.body with
  | none => .ok (.sequence [])
  | some body => Tree.contentModel body.children

/-- The attribute names of an element. -/
def attributeNames (element : FlatElement) : List String :=
  match element.body with
  | none => []
  | some body => Tree.attributeNames body.attributes

/-- The type of an element: the declared one, or else text if the content may hold text. -/
def elementType (element : FlatElement) (expression : Expression) : Except Error ElementType :=
  match element.type with
  | some name =>
    match ElementType.ofName? name with
    | some type => .ok type
    | none => .error (.grammar (.unknownType name element.name))
  | none => .ok (if expression.isAllowed textToken then .text else .element)

/-- Compiles an element. -/
def compile (limits : Limits) (element : FlatElement) : Except Error ElementSchema := do
  let model ← element.model
  let expression ← Expression.compile element.name model limits
  let type ← element.elementType expression
  ElementSchema.create element.name type element.attributeNames expression

end FlatElement

namespace Schema

/-- Compiles an element and enters it. -/
def compileEntry (limits : Limits) (entries : Catalogue ElementSchema)
    (entry : String × FlatElement) : Except Error (Catalogue ElementSchema) := do
  let element ← entry.2.compile limits
  .ok (entries.insert entry.1 element)

/-- The schema of a flat grammar. -/
def ofFlat (limits : Limits) (flat : FlatGrammar) : Except Error Schema := do
  let elements ← flat.elements.entries.foldlM (compileEntry limits) .empty
  ofElements elements flat.start

/-- The schema of a grammar whose includes are expanded. -/
def compileTree (limits : Limits) (tree : Tree) : Except Error Schema := do
  match tree.grammar? with
  | none => .error (.resolution .grammarNotFound)
  | some grammar => do
    let definitions ← Definitions.collect grammar
    let flat ← definitions.flatten
    ofFlat limits flat

end Schema

namespace Loader

/-- The schema of the grammar at a location. -/
def compile (loader : Loader) (location : Location) : Except Error Schema := do
  let tree ← loader.load location
  Schema.compileTree loader.limits tree

/-- The schema of the entry grammar. -/
def compileEntry (loader : Loader) (entry : String) : Except Error Schema := do
  let tree ← loader.loadEntry entry
  Schema.compileTree loader.limits tree

end Loader

end RelaxSchema
