import RelaxSchema.Catalogue

/-!
# Grammar trees

A grammar document reduced to its elements: comments, character data and namespaces are gone. The
passes over a grammar are functions on these trees. Nodes below a tree are listed in document
order, that is in preorder; `Tree.descendants` is the listing that all searches go by.
-/

namespace RelaxSchema

/-- An element of a grammar document. -/
structure Tree where
  /-- The local name of the element. -/
  name : String
  /-- The attributes by their local names. -/
  attributes : Catalogue String
  /-- The child elements. -/
  children : List Tree

namespace Tree

instance : Inhabited Tree := ⟨⟨"", .empty, []⟩⟩

/-- An element without attributes. -/
def plain (name : String) (children : List Tree) : Tree := ⟨name, .empty, children⟩

/-- The value of an attribute. -/
def attribute? (tree : Tree) (name : String) : Option String := tree.attributes.find? name

/-! ### Listing -/

mutual

/-- The tree and all nodes below it, in document order. -/
def preorder : Tree → List Tree
  | ⟨name, attributes, children⟩ => ⟨name, attributes, children⟩ :: preorderAll children

/-- The nodes of several trees, in document order. -/
def preorderAll : List Tree → List Tree
  | [] => []
  | tree :: rest => preorder tree ++ preorderAll rest

end

/-- The nodes below a tree, in document order. -/
def descendants (tree : Tree) : List Tree := preorderAll tree.children

theorem preorder_eq (tree : Tree) : tree.preorder = tree :: tree.descendants := by
  cases tree
  rfl

theorem preorderAll_eq_flatMap (trees : List Tree) :
    preorderAll trees = trees.flatMap preorder := by
  induction trees with
  | nil => rfl
  | cons tree rest ih => rw [preorderAll, ih, List.flatMap_cons]

theorem preorderAll_append (before after : List Tree) :
    preorderAll (before ++ after) = preorderAll before ++ preorderAll after := by
  rw [preorderAll_eq_flatMap, List.flatMap_append, ← preorderAll_eq_flatMap,
    ← preorderAll_eq_flatMap]

theorem mem_preorderAll {trees : List Tree} {node : Tree} :
    node ∈ preorderAll trees ↔ ∃ tree ∈ trees, node ∈ tree.preorder := by
  rw [preorderAll_eq_flatMap, List.mem_flatMap]

theorem mem_preorderAll_singleton {tree node : Tree} :
    node ∈ preorderAll [tree] ↔ node ∈ tree.preorder := by
  rw [preorderAll, preorderAll, List.append_nil]

theorem self_mem_preorder (tree : Tree) : tree ∈ tree.preorder :=
  preorder_eq tree ▸ List.mem_cons_self

theorem mem_preorder_of_below {tree node : Tree} (h : node ∈ tree.descendants) :
    node ∈ tree.preorder :=
  preorder_eq tree ▸ List.mem_cons_of_mem tree h

/-- The nodes of some of the trees are among the nodes of all. -/
theorem preorderAll_subset {trees trees' : List Tree} (h : trees ⊆ trees') :
    preorderAll trees ⊆ preorderAll trees' := by
  intro node hnode
  obtain ⟨tree, htree, hnode⟩ := mem_preorderAll.mp hnode
  exact mem_preorderAll.mpr ⟨tree, h htree, hnode⟩

/-- The nodes of a name below a tree, in document order. -/
def findAll (tree : Tree) (name : String) : List Tree :=
  tree.descendants.filter fun node => node.name = name

/-- The first node of a name below a tree. -/
def find? (tree : Tree) (name : String) : Option Tree :=
  tree.descendants.find? fun node => node.name = name

/-- Whether the tree or a node below it has the name. -/
def mentions (tree : Tree) (name : String) : Bool :=
  tree.preorder.any fun node => node.name = name

theorem mentions_eq (tree : Tree) (name : String) : tree.mentions name =
    (decide (tree.name = name) || tree.children.any fun child => child.mentions name) := by
  rw [mentions, preorder_eq, List.any_cons, descendants, preorderAll_eq_flatMap, List.any_flatMap]
  rfl

/-- The grammar element: the root, or else the first node of that name below it. -/
def grammar? (tree : Tree) : Option Tree :=
  if tree.name = "grammar" then some tree else tree.find? "grammar"

/-- The values of the attribute `name` at all nodes of a name below a tree. -/
def markedNames (tree : Tree) (marker : String) : List String :=
  (tree.findAll marker).filterMap fun node => node.attribute? "name"

end Tree

end RelaxSchema
