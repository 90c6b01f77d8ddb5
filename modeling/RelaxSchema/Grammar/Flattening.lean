import RelaxSchema.Grammar.Definitions
import RelaxSchema.Grammar.Expansion
import RelaxSchema.Grammar.NormalForm

/-!
# Flat grammars

A grammar is flattened to one entry for each element that it defines. The content of an entry has
all references expanded, and is divided into the blocks that hold attributes and the others, which
are brought into normal form.
-/

namespace RelaxSchema

/-- The content of an element, without references. -/
structure FlatBody where
  /-- The blocks that are or hold attributes. -/
  attributes : List Tree
  /-- The other blocks, in normal form. -/
  children : List Tree

/-- An element of a flat grammar. -/
structure FlatElement where
  /-- The name of the element. -/
  name : String
  /-- The declared type. -/
  type : Option String
  /-- The content; there is none if the element is marked as not implemented. -/
  body : Option FlatBody

/-- The element as a tree. -/
def FlatElement.toTree (element : FlatElement) : Tree where
  name := "element"
  attributes := .ofList (("name", element.name) ::
    (element.type.map fun type => ("type", type)).toList)
  children :=
    match element.body with
    | none => []
    | some body => [.plain "attributes" body.attributes, .plain "children" body.children]

/-- A grammar with one entry for each element. -/
structure FlatGrammar where
  /-- The elements in the order in which their names are first defined. -/
  elements : Catalogue FlatElement
  /-- The names of the elements in the order of their last definitions. -/
  latest : List String
  /-- The name that the start refers to. -/
  start : String

/-- The grammar as a tree, its elements in the order of their last definitions. -/
def FlatGrammar.toTree (flat : FlatGrammar) : Tree :=
  .plain "grammar" ((flat.latest.filterMap flat.elements.find?).map FlatElement.toTree)

namespace Definitions

/-- The expanded blocks of the content of an element. -/
def expandContent (bodies : Catalogue (List Tree)) (content : List Tree) :
    Except Error (List Tree) :=
  List.flatten <$> content.mapM (Expansion.expandBlock bodies)

/-- Divides blocks into those that hold attributes and the normal form of the others. -/
def divide (blocks : List Tree) : FlatBody where
  attributes := blocks.filter fun block => block.mentions "attribute"
  children := NormalForm.normalise (blocks.filter fun block => !block.mentions "attribute")

/-- The flat form of an element definition. -/
def flattenElement (bodies : Catalogue (List Tree)) (notImplemented : List String)
    (element : Tree) : Except Error FlatElement :=
  match element.attribute? "name" with
  | none => .error (.grammar .elementWithoutName)
  | some name =>
    if name ∈ notImplemented then .ok ⟨name, some "not-implemented", none⟩
    else do
      let blocks ← expandContent bodies element.children
      .ok ⟨name, none, some (divide blocks)⟩

/-- The elements in the order of their first and of their last definitions. -/
def enter (entries : Catalogue FlatElement × List String) (element : FlatElement) :
    Catalogue FlatElement × List String :=
  (entries.1.insert element.name element, entries.2.erase element.name ++ [element.name])

/-- Gives an element the type that a declaration assigns to it. -/
def assignType (elements : Catalogue FlatElement) (declaration : Tree) :
    Except Error (Catalogue FlatElement) :=
  match declaration.attribute? "name", declaration.attribute? "type" with
  | some name, some type =>
    match elements.find? name with
    | some element => .ok (elements.insert name { element with type := some type })
    | none => .error (.unknownElement name)
  | _, _ => .error (.grammar .elementTypeIncomplete)

/-- The name that the first reference in the first start refers to. -/
def startName (grammar : Tree) : Except Error String :=
  match grammar.find? "start" with
  | none => .error (.grammar .noStart)
  | some start =>
    match start.find? "ref" with
    | none => .error (.grammar .startWithoutRef)
    | some reference =>
      match reference.attribute? "name" with
      | none => .error (.grammar .startRefWithoutName)
      | some name => .ok name

/-- The flat form of a grammar. -/
def flatten (definitions : Definitions) : Except Error FlatGrammar := do
  let definitions := definitions.stripRemoved
  let grammar := definitions.toTree
  let notImplemented := grammar.markedNames "not-implemented"
  let elements ← definitions.elements.mapM (flattenElement definitions.bodies notImplemented)
  let (entries, latest) := elements.foldl enter (.empty, [])
  let entries ← (grammar.findAll "elementType").foldlM assignType entries
  let start ← startName grammar
  .ok ⟨entries, latest, start⟩

end Definitions

end RelaxSchema
