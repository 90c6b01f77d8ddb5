import RelaxSchema.Catalogue

/-!
# Elements of a document

The tree of a document that is to be validated. Names are kept as they are written, with their
prefixes. Adjacent character data is one text node; a CDATA section is a node of its own.
-/

namespace RelaxSchema

/-- A node of a document. -/
inductive Node where
  /-- An element. -/
  | element (name : String) (attributes : Catalogue String) (children : List Node)
  /-- Character data. -/
  | text (content : String)
  /-- A CDATA section. -/
  | cdata (content : String)

/-- An element of a document. -/
structure Element where
  /-- The name as it is written. -/
  name : String
  /-- The attributes by their written names. -/
  attributes : Catalogue String := .empty
  /-- The child nodes. -/
  children : List Node := []

namespace Node

instance : Inhabited Node := ⟨.text ""⟩

/-- The node as an element, if it is one. -/
def element? : Node → Option Element
  | element name attributes children => some ⟨name, attributes, children⟩
  | text _ => none
  | cdata _ => none

/-- The characters of a text or a CDATA section. -/
def characters? : Node → Option String
  | element _ _ _ => none
  | text content => some content
  | cdata content => some content

mutual

/-- The number of nodes of a tree. -/
def count : Node → Nat
  | element _ _ children => 1 + countAll children
  | text _ => 1
  | cdata _ => 1

/-- The number of nodes of several trees. -/
def countAll : List Node → Nat
  | [] => 0
  | node :: rest => count node + countAll rest

end

/-- Adds text behind some nodes, the last of which comes first. It continues a text that stands
there. -/
def joinText (more : String) : List Node → List Node
  | text content :: rest => text (content ++ more) :: rest
  | nodes => text more :: nodes

end Node

namespace Element

instance : Inhabited Element := ⟨{ name := "" }⟩

/-- The element as a node. -/
def toNode (element : Element) : Node := .element element.name element.attributes element.children

/-- The name without the prefix. -/
def localName (element : Element) : String :=
  match element.name.toList.dropWhile (· ≠ ':') with
  | [] => element.name
  | _ :: rest => String.ofList rest

/-- The value of an attribute. -/
def attribute? (element : Element) (name : String) : Option String := element.attributes.find? name

/-- Sets an attribute. -/
def setAttribute (element : Element) (name value : String) : Element :=
  { element with attributes := element.attributes.insert name value }

/-- Adds a node at the end. -/
def addNode (element : Element) (node : Node) : Element :=
  { element with children := element.children ++ [node] }

/-- Adds an element at the end. -/
def addChild (element child : Element) : Element := element.addNode child.toNode

/-- Adds character data at the end. -/
def pushText (element : Element) (more : String) : Element :=
  { element with children := (Node.joinText more element.children.reverse).reverse }

/-- The child elements. -/
def childElements (element : Element) : List Element := element.children.filterMap Node.element?

/-- The child elements of a name. -/
def findChildren (element : Element) (name : String) : List Element :=
  element.childElements.filter fun child => child.name = name

/-- The characters directly in the element. -/
def text (element : Element) : String := String.join (element.children.filterMap Node.characters?)

/-- The number of nodes of the element. -/
def count (element : Element) : Nat := element.toNode.count

/-- The number of nodes of several elements. -/
def countAll : List Element → Nat
  | [] => 0
  | element :: rest => element.count + countAll rest

theorem countAll_append (left right : List Element) :
    countAll (left ++ right) = countAll left + countAll right := by
  induction left with
  | nil => simp [countAll]
  | cons element rest ih => simp [countAll, ih, Nat.add_assoc]

/-- The child elements have no more nodes than all children. -/
theorem countAll_filterMap_element?_le (nodes : List Node) :
    countAll (nodes.filterMap Node.element?) ≤ Node.countAll nodes := by
  induction nodes with
  | nil => simp [countAll]
  | cons node rest ih =>
    have skipped : ∀ node : Node, node.element? = none →
        countAll ((node :: rest).filterMap Node.element?) ≤ Node.countAll (node :: rest) := by
      intro node none
      rw [List.filterMap_cons, none, Node.countAll]
      exact Nat.le_trans ih (Nat.le_add_left _ _)
    cases node with
    | element name attributes children =>
      simpa [Node.element?, Node.countAll, countAll, count, toNode] using ih
    | text content => exact skipped _ rfl
    | cdata content => exact skipped _ rfl

end Element

end RelaxSchema
