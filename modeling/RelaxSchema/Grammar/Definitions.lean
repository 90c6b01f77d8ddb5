import RelaxSchema.Error
import RelaxSchema.Grammar.Tree

/-!
# Definitions

The named definitions of a grammar are the `define` children of its grammar element; a `define`
further down is not registered. A later definition replaces an earlier one of the same name. One
that is to be combined by interleaving hands its children to the registered one instead, and stays
behind without children.
-/

namespace RelaxSchema

/-- A grammar with its registered definitions. -/
structure Definitions where
  /-- The children of the grammar element. -/
  children : List Tree
  /-- For each name, the position of its definition among the definitions in `children`. -/
  positions : Catalogue Nat

namespace Definitions

/-- Whether a node is a definition. -/
def isDefine (tree : Tree) : Bool := tree.name = "define"

/-- The definitions among the children, registered or not. -/
def defines (definitions : Definitions) : List Tree := definitions.children.filter isDefine

/-- Adds children at the end of the definition at a position. -/
def extendDefine (extra : List Tree) : Nat → List Tree → List Tree
  | _, [] => []
  | position, tree :: rest =>
    if isDefine tree then
      match position with
      | 0 => { tree with children := tree.children ++ extra } :: rest
      | position + 1 => tree :: extendDefine extra position rest
    else tree :: extendDefine extra position rest

/-- Registers the next child of the grammar element, if it is a definition. -/
def register (definitions : Definitions) (tree : Tree) : Except Error Definitions :=
  if isDefine tree then
    match tree.attribute? "name" with
    | none => .error (.grammar .defineWithoutName)
    | some name =>
      match definitions.positions.find? name, tree.attribute? "combine" with
      -- The combined definition keeps its place but not its children.
      | some position, some "interleave" =>
        .ok { definitions with
          children := extendDefine tree.children position definitions.children ++
            [{ tree with children := [] }] }
      | _, _ =>
        .ok ⟨definitions.children ++ [tree],
          definitions.positions.insert name definitions.defines.length⟩
  else .ok { definitions with children := definitions.children ++ [tree] }

/-- Registers the definitions among the children of a grammar element. -/
def collect (grammar : Tree) : Except Error Definitions :=
  grammar.children.foldlM register ⟨[], .empty⟩

/-- The number of registered definitions. -/
def size (definitions : Definitions) : Nat := definitions.positions.size

/-- The registered definition of a name. -/
def find? (definitions : Definitions) (name : String) : Option Tree :=
  (definitions.positions.find? name).bind fun position => definitions.defines[position]?

/-- Whether the definition at a position is the registered one of its name. -/
def isRegistered (definitions : Definitions) (position : Nat) (tree : Tree) : Bool :=
  ((tree.attribute? "name").bind definitions.positions.find?) = some position

/-- The children of each registered definition. -/
def bodies (definitions : Definitions) : Catalogue (List Tree) :=
  let defines := definitions.defines
  definitions.positions.map fun position => (defines[position]?.map Tree.children).getD []

/-- The grammar element. -/
def toTree (definitions : Definitions) : Tree := .plain "grammar" definitions.children

/-- For every definition below some children of the grammar element, in document order, whether it
is registered. `position` is that of the first one directly among them. -/
def registrations (definitions : Definitions) : Nat → List Tree → List Bool
  | _, [] => []
  | position, tree :: rest =>
    let nested := (tree.findAll "define").map fun _ => false
    if isDefine tree then
      definitions.isRegistered position tree ::
        (nested ++ definitions.registrations (position + 1) rest)
    else nested ++ definitions.registrations position rest

/-- For every definition of the grammar, in document order, whether it is registered. -/
def registered (definitions : Definitions) : List Bool :=
  definitions.registrations 0 definitions.children

/-! ### Removed names -/

/-- Whether a node is an element or a reference with one of the names. -/
def isRemoved (names : List String) (tree : Tree) : Bool :=
  (tree.name = "element" || tree.name = "ref") &&
    (tree.attribute? "name").any fun value => names.contains value

mutual

/-- Some trees without the elements and references that have one of the names. -/
def strip (names : List String) : List Tree → List Tree
  | [] => []
  | tree :: rest =>
    if isRemoved names tree then strip names rest else stripTree names tree :: strip names rest

/-- A tree without the elements and references below it that have one of the names. -/
def stripTree (names : List String) : Tree → Tree
  | ⟨name, attributes, children⟩ => ⟨name, attributes, strip names children⟩

end

/-- The grammar without the elements and references whose names are marked as removed. No
definition goes away, so the positions stay right. -/
def stripRemoved (definitions : Definitions) : Definitions :=
  { definitions with
    children := strip (definitions.toTree.markedNames "removed") definitions.children }

/-! ### Element definitions -/

mutual

/-- The elements among a node and those below it that stand directly in a definition, in document
order; `direct`, if the node itself does. -/
def elementsAt (direct : Bool) : Tree → List Tree
  | ⟨name, attributes, children⟩ =>
    (if direct && name = "element" then [⟨name, attributes, children⟩] else []) ++
      elementsBelow (name = "define") children

/-- The elements at and below several nodes that stand directly in a definition. -/
def elementsBelow (direct : Bool) : List Tree → List Tree
  | [] => []
  | tree :: rest => elementsAt direct tree ++ elementsBelow direct rest

end

/-- The elements that the children of a grammar element define. A definition among them counts if
it is registered, one further down always. `position` is that of the first one among them. -/
def elementsFrom (definitions : Definitions) : Nat → List Tree → List Tree
  | _, [] => []
  | position, tree :: rest =>
    if isDefine tree then
      elementsBelow (definitions.isRegistered position tree) tree.children ++
        definitions.elementsFrom (position + 1) rest
    else elementsBelow false tree.children ++ definitions.elementsFrom position rest

/-- The elements that a grammar defines, in document order. -/
def elements (definitions : Definitions) : List Tree :=
  definitions.elementsFrom 0 definitions.children

end Definitions

end RelaxSchema
