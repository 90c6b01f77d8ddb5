import RelaxSchema.Grammar.Tree

/-!
# Forests

Grammar elements that can be edited in place. Every element has an id, its place in the order of
creation, and keeps it; elements without a parent are the roots of trees. An element is created
without parent and children, and moved by `append`, `insertBefore`, `replace` and `detach`, each of
which takes it out of the place where it was. The element created first is the root of the document.
-/

namespace RelaxSchema

/-- An element of a forest. -/
structure ForestNode where
  /-- The local name of the element. -/
  name : String
  /-- The attributes by their local names. -/
  attributes : Catalogue String := .empty
  /-- The ids of the child elements. -/
  children : List Nat := []
  /-- The id of the element that this one is a child of. -/
  parent : Option Nat := none

instance : Inhabited ForestNode := ⟨{ name := "" }⟩

/-- Grammar elements by their ids. -/
structure Forest where
  /-- The elements. -/
  nodes : Array ForestNode := #[]

namespace Forest

/-! ### Looking -/

/-- The number of elements, which is the id of the next one. -/
def size (forest : Forest) : Nat := forest.nodes.size

/-- The element of an id. -/
def node (forest : Forest) (id : Nat) : ForestNode := forest.nodes.getD id default

/-- The ids of the children of an element. -/
def children (forest : Forest) (id : Nat) : List Nat := (forest.node id).children

/-- The id of the parent of an element. -/
def parent? (forest : Forest) (id : Nat) : Option Nat := (forest.node id).parent

/-- The value of an attribute of an element. -/
def attribute? (forest : Forest) (id : Nat) (name : String) : Option String :=
  (forest.node id).attributes.find? name

/-- Whether an element has the name. -/
def isNamed (forest : Forest) (id : Nat) (name : String) : Bool := (forest.node id).name = name

/-- The pending elements and those below them in document order, at most `fuel` of them. -/
def preorder (forest : Forest) : Nat → List Nat → List Nat
  | 0, _ => []
  | _ + 1, [] => []
  | fuel + 1, id :: pending => id :: forest.preorder fuel (forest.children id ++ pending)

/-- The elements below an element in document order. No element comes twice, so their number is at
most that of all elements. -/
def descendants (forest : Forest) (id : Nat) : List Nat :=
  forest.preorder forest.size (forest.children id)

/-- The elements of a name below an element in document order. -/
def findAll (forest : Forest) (id : Nat) (name : String) : List Nat :=
  (forest.descendants id).filter fun other => forest.isNamed other name

/-- The first element of a name below an element. -/
def find? (forest : Forest) (id : Nat) (name : String) : Option Nat :=
  (forest.descendants id).find? fun other => forest.isNamed other name

/-- The id of the root of the document. -/
def root : Nat := 0

/-- The grammar element: the root, or else the first element of that name below it. -/
def grammar? (forest : Forest) : Option Nat :=
  if forest.isNamed root "grammar" then some root else forest.find? root "grammar"

/-! ### Editing -/

/-- Changes an element. -/
def change (forest : Forest) (id : Nat) (edit : ForestNode → ForestNode) : Forest :=
  ⟨forest.nodes.modify id edit⟩

/-- Makes an element a child of another one, or of none, on its side only. -/
def setParent (forest : Forest) (id : Nat) (parent : Option Nat) : Forest :=
  forest.change id fun node => { node with parent := parent }

/-- Changes the list of the children of an element. -/
def changeChildren (forest : Forest) (id : Nat) (edit : List Nat → List Nat) : Forest :=
  forest.change id fun node => { node with children := edit node.children }

/-- Adds an element without parent and children. -/
def create (forest : Forest) (name : String) (attributes : Catalogue String) : Forest :=
  ⟨forest.nodes.push { name := name, attributes := attributes }⟩

/-- Sets an attribute of an element. -/
def setAttribute (forest : Forest) (id : Nat) (name value : String) : Forest :=
  forest.change id fun node => { node with attributes := node.attributes.insert name value }

/-- Takes an element, with all that is below it, away from its parent. -/
def detach (forest : Forest) (id : Nat) : Forest :=
  match forest.parent? id with
  | none => forest
  | some parent =>
    (forest.setParent id none).changeChildren parent fun children =>
      children.filter fun child => child ≠ id

/-- Moves an element to a place among the children of another one. -/
def attach (forest : Forest) (parent child : Nat) (place : List Nat → List Nat) : Forest :=
  ((forest.detach child).setParent child (some parent)).changeChildren parent place

/-- Moves an element to the end of the children of another one. -/
def append (forest : Forest) (parent child : Nat) : Forest :=
  forest.attach parent child fun children => children ++ [child]

/-- Puts an id before another one, or at the end if that is missing. -/
def putBefore (id reference : Nat) : List Nat → List Nat
  | [] => [id]
  | head :: rest =>
    if head = reference then id :: head :: rest else head :: putBefore id reference rest

/-- Moves an element before a child of another one, or to the end of its children if the reference
is none of them. -/
def insertBefore (forest : Forest) (parent child reference : Nat) : Forest :=
  forest.attach parent child (putBefore child reference)

/-- Moves an element to the place of another one, which is detached. Nothing happens if that one has
no parent. -/
def replace (forest : Forest) (old new : Nat) : Forest :=
  match forest.parent? old with
  | none => forest
  | some parent =>
    let forest := (forest.detach new).changeChildren parent fun children =>
      children.replace old new
    (forest.setParent new (some parent)).setParent old none

/-! ### Trees -/

mutual

/-- Adds the elements of a tree in document order. Its root gets no parent. -/
def plant (forest : Forest) : Tree → Forest
  | ⟨name, attributes, children⟩ =>
    plantAll (forest.create name attributes) forest.size children

/-- Adds the elements of several trees and appends the roots to an element. -/
def plantAll (forest : Forest) (parent : Nat) : List Tree → Forest
  | [] => forest
  | tree :: rest => plantAll ((forest.plant tree).append parent forest.size) parent rest

end

/-- The forest of one document. -/
def ofTree (tree : Tree) : Forest := plant {} tree

/-- The tree of an element, down to a depth. -/
def treeWithin (forest : Forest) : Nat → Nat → Tree
  | 0, id => ⟨(forest.node id).name, (forest.node id).attributes, []⟩
  | depth + 1, id =>
    ⟨(forest.node id).name, (forest.node id).attributes,
      (forest.children id).map (forest.treeWithin depth)⟩

/-- The tree of an element. A way down meets no element twice, so it is no longer than the number of
elements. -/
def tree (forest : Forest) (id : Nat) : Tree := forest.treeWithin forest.size id

/-- Adds a copy of an element of another forest, without its children. -/
def copy (forest other : Forest) (id : Nat) : Forest :=
  forest.create (other.node id).name (other.node id).attributes

/-- Adds a copy of an element of another forest and of all that is below it. -/
def copyTree (forest other : Forest) (id : Nat) : Forest := forest.plant (other.tree id)

end Forest

end RelaxSchema
