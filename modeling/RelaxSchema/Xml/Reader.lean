import RelaxSchema.Error
import RelaxSchema.Grammar.Tree
import RelaxSchema.Xml.Attribute

/-!
# Reading grammar documents

A well-formed document with namespaces becomes the tree of its elements. The open elements stand on
a stack. Character data matters only for the entities in it, whose replacement text is content
again and may hold elements.

A replacement text need not be balanced. It may leave elements open and close elements that were
open before; the end tag that closes one more than the text has opened ends it, and what follows is
not read. It may also end within a start tag: the attributes so far then wait for the next tag.
-/

namespace RelaxSchema.Xml

/-- An open element. -/
structure OpenElement where
  /-- The name with the prefix. -/
  name : QName
  /-- The attributes. -/
  attributes : Catalogue String
  /-- The prefixes in scope. -/
  bindings : Bindings
  /-- The child elements so far, in reverse. -/
  children : List Tree

/-- A document that is being read. -/
structure Reading where
  /-- The open elements, innermost first. -/
  stack : List OpenElement := []
  /-- The root element, once it is complete. -/
  root : Option Tree := none
  /-- Whether a start tag was met in the present text: the document or the entity. -/
  started : Bool := false
  /-- The attributes that wait for the end of a tag. -/
  waiting : AttributeList := {}

namespace Reading

/-- Hands a complete element to the one it is in. -/
def complete (reading : Reading) (tree : Tree) : Reading :=
  match reading.stack with
  | [] => { reading with root := reading.root.or (some tree) }
  | top :: rest => { reading with stack := { top with children := tree :: top.children } :: rest }

/-- Reads the attributes of a start tag. -/
def addAttributes (reading : Reading) (entities : Entities) (budget : Nat)
    (attributes : List (QName × List Char)) : Option Reading := do
  let waiting ← attributes.foldlM (AttributeList.add entities budget) reading.waiting
  some { reading with started := true, waiting := waiting }

/-- The prefixes in scope: those that wait for the end of a tag, and those of the innermost open
element. -/
def bindings (reading : Reading) : Bindings :=
  reading.waiting.declared ++ (reading.stack.head?.map OpenElement.bindings).getD []

/-- Takes the attributes that wait, at the end of a tag. -/
def takeAttributes (reading : Reading) : Option (Catalogue String × Reading) := do
  let attributes ← attributesOf reading.bindings reading.waiting.plain
  some (attributes, { reading with waiting := { used := reading.waiting.used } })

/-- Opens an element at the end of its start tag. -/
def openElement (reading : Reading) (name : QName) : Option Reading := do
  let bindings := reading.bindings
  let (attributes, reading) ← reading.takeAttributes
  if elementNameAllowed bindings name then
    some { reading with stack := ⟨name, attributes, bindings, []⟩ :: reading.stack }
  else none

/-- Closes the innermost open element. -/
def closeElement (reading : Reading) : Option Reading :=
  match reading.stack with
  | [] => none
  | top :: rest =>
    some ({ reading with stack := rest }.complete
      ⟨top.name.localName, top.attributes, top.children.reverse⟩)

/-- Closes the innermost open element by an end tag of the same name. A text whose first tag is an
end tag is refused. Attributes that wait are checked as those of a start tag and dropped. -/
def endElement (reading : Reading) (name : QName) : Option Reading := do
  let (_, reading) ← reading.takeAttributes
  if reading.started && (reading.stack.head?.map OpenElement.name) = some name then
    reading.closeElement
  else none

end Reading

/-- The entities that character data refers to, behind those found, in reverse. -/
def entitiesIn : Nat → List String → List Char → Option (List String)
  | 0, _, _ => none
  | fuel + 1, found, written =>
    match written.dropWhile (· ≠ '&') with
    | [] => some found.reverse
    | _ :: rest =>
      match Scanner.reference.run rest with
      | some (.entity name, rest) => entitiesIn fuel (name :: found) rest
      | some (.character _, rest) => entitiesIn fuel found rest
      | none => none

/-- Reads pieces of content with `level` elements open that were opened in the same text, up to the
end tag that closes one more. `expand` reads the content of an entity. -/
def readContentWith (entities : Entities) (budget : Nat)
    (expand : Reading → String → Option Reading) :
    List Token → Nat → Reading → Option (Reading × List Token)
  | [], _, reading => some (reading, [])
  | .opening name attributes ending :: rest, level, reading => do
    let reading ← reading.addAttributes entities budget attributes
    match ending with
    | .filled =>
      readContentWith entities budget expand rest (level + 1) (← reading.openElement name)
    | .empty =>
      let reading ← reading.openElement name
      readContentWith entities budget expand rest level (← reading.closeElement)
    | .missing =>
      if name.isReserved then none else readContentWith entities budget expand rest level reading
  | .closing name :: rest, level, reading => do
    let reading ← reading.endElement name
    match level with
    | 0 => some (reading, rest)
    | level + 1 => readContentWith entities budget expand rest level reading
  | .text written :: rest, level, reading => do
    let names ← entitiesIn (written.length + 1) [] written
    readContentWith entities budget expand rest level (← names.foldlM expand reading)
  | .cdata :: rest, level, reading => readContentWith entities budget expand rest level reading
  | .remark :: rest, level, reading => readContentWith entities budget expand rest level reading
  | .malformed :: _, _, _ => none

/-- Reads pieces of content with `budget` levels of entity nesting left. -/
def readContent (entities : Entities) :
    Nat → List Token → Reading → Option (Reading × List Token)
  | 0, pieces, reading => readContentWith entities 0 (fun _ _ => none) pieces 0 reading
  | budget + 1, pieces, reading =>
    let expand (reading : Reading) (name : String) : Option Reading := do
      let value ← entities.lookup name
      let used ← countEntity (budget + 1) reading.waiting.used
      let (result, _) ← readContent entities budget (tokens value)
        { reading with started := false, waiting := { reading.waiting with used := used } }
      let used := settleCount (budget + 1) result.waiting.used
      some { result with
        started := reading.started
        waiting := { result.waiting with used := used } }
    readContentWith entities (budget + 1) expand pieces 0 reading

/-- Whether a piece may stand behind the root element. -/
def Token.isTrailing : Token → Bool
  | .text written => written.all isSpace
  | .remark => true
  | _ => false

/-- Reads the root element, of which a whole start tag stands first, and what stands behind it. -/
def readRoot (entities : Entities) : List Token → Option Tree
  | .opening name attributes ending :: rest => do
    let reading ← Reading.addAttributes {} entities maxEntityDepth attributes
    let reading ← reading.openElement name
    let (reading, rest) ←
      match ending with
      | .filled => readContent entities maxEntityDepth rest reading
      | .empty => reading.closeElement.map fun reading => (reading, rest)
      | .missing => none
    if reading.stack.isEmpty && rest.all Token.isTrailing then reading.root else none
  | _ => none

/-- The tree of a document, if it is well-formed. -/
def readDocument? (text : String) : Option Tree := do
  let (entities, rest) ← Scanner.prolog.run text.toList
  readRoot entities (tokens rest)

end RelaxSchema.Xml

namespace RelaxSchema

/-- The tree of a grammar document. -/
def Tree.parse (text : String) (location : Option String) : Except Error Tree :=
  match Xml.readDocument? text with
  | some tree => .ok tree
  | none => .error (.malformedGrammar ⟨"the text is no well-formed XML document", location⟩)

end RelaxSchema
