import Mathlib
import RelaxSchema.Grammar.Forest

/-!
# Trees in a forest

What it means that a tree stands in a forest, element by element with its id (`Forest.Holds`), and
that planting a tree makes it stand there.

* `Forest.isPlanted_plant`: a tree that is planted stands in the forest, with new ids, and nothing
  else is changed;
* `Forest.receives_foldl_attach`: trees that are planted one after the other and attached to one
  element stand below it, and only the list of its children is another one.

An element that is looked at or moved is reached by its id, so all that is said about one tree
carries over to a forest in which its elements are the same (`Forest.Holds.congr`).
-/

namespace RelaxSchema

open List

/-! ### Trees with ids -/

/-- A tree as it stands in a forest: each element has its id. -/
structure PlantedTree where
  /-- The id of the element. -/
  id : Nat
  /-- The local name of the element. -/
  name : String
  /-- The attributes by their local names. -/
  attributes : Catalogue String
  /-- The child elements. -/
  children : List PlantedTree

namespace PlantedTree

mutual

/-- The tree without the ids. -/
def toTree : PlantedTree → Tree
  | ⟨_, name, attributes, children⟩ => ⟨name, attributes, toTrees children⟩

/-- Several trees without the ids. -/
def toTrees : List PlantedTree → List Tree
  | [] => []
  | tree :: rest => toTree tree :: toTrees rest

end

mutual

/-- The tree and all trees below it, in document order. -/
def preorder : PlantedTree → List PlantedTree
  | ⟨id, name, attributes, children⟩ => ⟨id, name, attributes, children⟩ :: preorderAll children

/-- The trees at and below several trees, in document order. -/
def preorderAll : List PlantedTree → List PlantedTree
  | [] => []
  | tree :: rest => preorder tree ++ preorderAll rest

end

/-- The ids of several trees in document order. -/
def ids (trees : List PlantedTree) : List Nat := (preorderAll trees).map PlantedTree.id

theorem toTrees_eq_map (trees : List PlantedTree) : toTrees trees = trees.map toTree := by
  induction trees with
  | nil => rfl
  | cons tree rest ih => rw [toTrees, ih, map_cons]

theorem toTree_eq (tree : PlantedTree) :
    tree.toTree = ⟨tree.name, tree.attributes, tree.children.map toTree⟩ := by
  cases tree
  rw [toTree, toTrees_eq_map]

theorem children_toTree (tree : PlantedTree) : tree.toTree.children = tree.children.map toTree := by
  rw [toTree_eq]

theorem preorder_eq (tree : PlantedTree) : tree.preorder = tree :: preorderAll tree.children := by
  cases tree
  rfl

theorem preorderAll_append (before after : List PlantedTree) :
    preorderAll (before ++ after) = preorderAll before ++ preorderAll after := by
  induction before with
  | nil => rfl
  | cons tree rest ih => rw [cons_append, preorderAll, preorderAll, ih, append_assoc]

theorem mem_preorderAll {trees : List PlantedTree} {tree : PlantedTree} :
    tree ∈ preorderAll trees ↔ ∃ other ∈ trees, tree ∈ other.preorder := by
  induction trees with
  | nil => simp [preorderAll]
  | cons other rest ih => rw [preorderAll, mem_append, ih, exists_mem_cons_iff]

theorem preorderAll_singleton (tree : PlantedTree) :
    preorderAll [tree] = tree.preorder := append_nil _

theorem self_mem_preorder (tree : PlantedTree) : tree ∈ tree.preorder :=
  preorder_eq tree ▸ mem_cons_self

theorem mem_preorder_of_below {tree node : PlantedTree} (h : node ∈ preorderAll tree.children) :
    node ∈ tree.preorder :=
  preorder_eq tree ▸ mem_cons_of_mem _ h

theorem mem_preorderAll_of_mem {trees : List PlantedTree} {tree : PlantedTree} (h : tree ∈ trees) :
    tree ∈ preorderAll trees :=
  mem_preorderAll.mpr ⟨tree, h, self_mem_preorder tree⟩

theorem ids_cons (tree : PlantedTree) (rest : List PlantedTree) :
    ids (tree :: rest) = tree.id :: (ids tree.children ++ ids rest) := by
  rw [ids, preorderAll, preorder_eq, map_append, map_cons, cons_append]
  rfl

theorem ids_append (before after : List PlantedTree) :
    ids (before ++ after) = ids before ++ ids after := by
  rw [ids, preorderAll_append, map_append]
  rfl

theorem ids_singleton (tree : PlantedTree) : ids [tree] = tree.id :: ids tree.children := by
  rw [ids_cons, show ids [] = [] from rfl, append_nil]

theorem ids_subset_of_mem {tree : PlantedTree} {trees : List PlantedTree} (h : tree ∈ trees) :
    ids [tree] ⊆ ids trees := by
  obtain ⟨before, after, rfl⟩ := append_of_mem h
  have hsplit : ids (before ++ tree :: after) = ids before ++ (ids [tree] ++ ids after) := by
    rw [ids_append, ids_cons, ids_singleton, cons_append]
  rw [hsplit]
  exact fun id hid => mem_append_right _ (mem_append_left _ hid)

theorem mem_ids {trees : List PlantedTree} {id : Nat} :
    id ∈ ids trees ↔ ∃ tree ∈ trees, id ∈ ids [tree] := by
  constructor
  · intro hid
    obtain ⟨node, hnode, rfl⟩ := mem_map.mp hid
    obtain ⟨tree, htree, hmem⟩ := mem_preorderAll.mp hnode
    exact ⟨tree, htree, mem_map.mpr ⟨node, preorderAll_singleton tree ▸ hmem, rfl⟩⟩
  · rintro ⟨tree, htree, hid⟩
    exact ids_subset_of_mem htree hid

/-- What holds of no trees, and of trees if it holds of the children of the first one and of the
others, holds of all trees. -/
@[elab_as_elim]
theorem induction {P : List PlantedTree → Prop} (nil : P [])
    (cons : ∀ tree rest, P tree.children → P rest → P (tree :: rest)) : ∀ trees, P trees
  | [] => nil
  | ⟨id, name, attributes, children⟩ :: rest =>
    cons ⟨id, name, attributes, children⟩ rest (induction nil cons children)
      (induction nil cons rest)

end PlantedTree

namespace Forest

open PlantedTree

variable {forest forest' : Forest}

/-! ### Elements after an edit -/

theorem node_of_size_le {id : Nat} (h : forest.size ≤ id) : forest.node id = default := by
  have hnone : forest.nodes[id]? = none := Array.getElem?_eq_none h
  rw [node, Array.getD_eq_getD_getElem?, hnone, Option.getD_none]

theorem size_change (forest : Forest) (id : Nat) (edit : ForestNode → ForestNode) :
    (forest.change id edit).size = forest.size :=
  Array.size_modify

theorem node_change {id : Nat} (h : id < forest.size) (edit : ForestNode → ForestNode)
    (other : Nat) : (forest.change id edit).node other =
      if other = id then edit (forest.node other) else forest.node other := by
  rw [node, node, change, Array.getD_eq_getD_getElem?, Array.getD_eq_getD_getElem?,
    Array.getElem?_modify]
  by_cases hother : id = other
  · subst hother
    have hsome : forest.nodes[id]? = some forest.nodes[id] := Array.getElem?_eq_getElem h
    rw [if_pos rfl, if_pos rfl, hsome, Option.map_some, Option.getD_some, Option.getD_some]
  · rw [if_neg hother, if_neg (Ne.symm hother)]

theorem size_create (forest : Forest) (name : String) (attributes : Catalogue String) :
    (forest.create name attributes).size = forest.size + 1 :=
  Array.size_push _

theorem node_create (forest : Forest) (name : String) (attributes : Catalogue String) (id : Nat) :
    (forest.create name attributes).node id =
      if id = forest.size then { name := name, attributes := attributes } else forest.node id := by
  rw [node, node, create, Array.getD_eq_getD_getElem?, Array.getD_eq_getD_getElem?,
    Array.getElem?_push, size]
  split <;> rfl

theorem size_detach (forest : Forest) (id : Nat) : (forest.detach id).size = forest.size := by
  unfold detach
  split
  · rfl
  · rw [changeChildren, size_change, setParent, size_change]

theorem size_attach (forest : Forest) (parent child : Nat) (place : List Nat → List Nat) :
    (forest.attach parent child place).size = forest.size := by
  rw [attach, changeChildren, size_change, setParent, size_change, size_detach]

/-- An element without a parent stays where it is when it is detached. -/
theorem detach_of_parent?_eq_none {id : Nat} (h : forest.parent? id = none) :
    forest.detach id = forest := by
  rw [detach, h]

theorem node_detach {id parent : Nat} (h : forest.parent? id = some parent) (hid : id < forest.size)
    (hparent : parent < forest.size) (other : Nat) :
    (forest.detach id).node other = { forest.node other with
      children := if other = parent then (forest.children other).filter fun child => child ≠ id
        else forest.children other
      parent := if other = id then none else forest.parent? other } := by
  have hsize : parent < (forest.setParent id none).size := by rwa [setParent, size_change]
  rw [detach, h]
  show ((forest.setParent id none).changeChildren parent _).node other = _
  rw [changeChildren, node_change hsize, setParent, node_change hid]
  split <;> split <;> rfl

/-- Attaching the root of a tree gives it a parent, and its parent other children. -/
theorem node_attach {parent child : Nat} (h : forest.parent? child = none)
    (hchild : child < forest.size) (hparent : parent < forest.size) (place : List Nat → List Nat)
    (other : Nat) : (forest.attach parent child place).node other = { forest.node other with
      children := if other = parent then place (forest.children other) else forest.children other
      parent := if other = child then some parent else forest.parent? other } := by
  have hsize : parent < (forest.setParent child (some parent)).size := by
    rwa [setParent, size_change]
  rw [attach, detach_of_parent?_eq_none h, changeChildren, node_change hsize, setParent,
    node_change hchild]
  split <;> split <;> rfl

/-! ### Children and parents -/

/-- Each element that has a parent is a child of it. -/
def IsLinked (forest : Forest) : Prop :=
  ∀ id parent, forest.parent? id = some parent → id ∈ forest.children parent

theorem lt_size_of_parent? {id parent : Nat} (h : forest.parent? id = some parent) :
    id < forest.size := by
  by_contra hle
  rw [parent?, node_of_size_le (not_lt.mp hle)] at h
  exact absurd h (by simp [default])

theorem lt_size_of_mem_children {id parent : Nat} (h : id ∈ forest.children parent) :
    parent < forest.size := by
  by_contra hle
  rw [children, node_of_size_le (not_lt.mp hle)] at h
  exact absurd h (by simp [default])

theorem IsLinked.parent_lt_size (h : forest.IsLinked) {id parent : Nat}
    (hparent : forest.parent? id = some parent) : parent < forest.size :=
  lt_size_of_mem_children (h id parent hparent)

theorem IsLinked.create (h : forest.IsLinked) (name : String) (attributes : Catalogue String) :
    (forest.create name attributes).IsLinked := by
  intro id parent hparent
  rw [parent?, node_create] at hparent
  split at hparent
  · simp at hparent
  · have hmem : id ∈ forest.children parent := h id parent hparent
    have hlt := lt_size_of_mem_children hmem
    rw [children, node_create, if_neg hlt.ne]
    exact hmem

theorem IsLinked.attach (h : forest.IsLinked) {parent child : Nat}
    (hroot : forest.parent? child = none) (hchild : child < forest.size)
    (hparent : parent < forest.size) {place : List Nat → List Nat}
    (hplace : ∀ ids, child ∈ place ids ∧ ids ⊆ place ids) :
    (forest.attach parent child place).IsLinked := by
  intro id other hother
  rw [parent?, node_attach hroot hchild hparent] at hother
  rw [children, node_attach hroot hchild hparent]
  show id ∈ if other = parent then place (forest.children other) else forest.children other
  by_cases hid : id = child
  · obtain rfl : parent = other := Option.some.inj ((if_pos hid).symm.trans hother)
    rw [if_pos rfl, hid]
    exact (hplace _).1
  · have hmem : id ∈ forest.children other := h id other ((if_neg hid).symm.trans hother)
    split
    · exact (hplace _).2 hmem
    · exact hmem

theorem IsLinked.detach (h : forest.IsLinked) {id parent : Nat}
    (hid : forest.parent? id = some parent) : (forest.detach id).IsLinked := by
  have hnode := node_detach hid (lt_size_of_parent? hid) (h.parent_lt_size hid)
  intro child other hother
  rw [parent?, hnode] at hother
  rw [children, hnode]
  show child ∈ if other = parent then (forest.children other).filter fun child => child ≠ id
    else forest.children other
  by_cases hchild : child = id
  · exact absurd ((if_pos hchild).symm.trans hother) (by simp)
  · have hmem : child ∈ forest.children other := h child other ((if_neg hchild).symm.trans hother)
    split
    · exact mem_filter.mpr ⟨hmem, by simpa using hchild⟩
    · exact hmem

/-! ### Trees that stand in a forest -/

/-- A tree stands in a forest, its root with a parent or without one. -/
inductive Holds (forest : Forest) : Option Nat → PlantedTree → Prop
  /-- The elements are as the tree says. -/
  | intro {parent : Option Nat} {tree : PlantedTree} :
      forest.node tree.id =
        ⟨tree.name, tree.attributes, tree.children.map PlantedTree.id, parent⟩ →
      (∀ child ∈ tree.children, Holds forest (some tree.id) child) → Holds forest parent tree

section Holds

variable {parent : Option Nat} {tree : PlantedTree}

theorem Holds.node_eq (h : forest.Holds parent tree) : forest.node tree.id =
    ⟨tree.name, tree.attributes, tree.children.map PlantedTree.id, parent⟩ := by
  cases h
  assumption

theorem Holds.forall_children (h : forest.Holds parent tree) :
    ∀ child ∈ tree.children, forest.Holds (some tree.id) child := by
  cases h
  assumption

theorem Holds.parent?_eq (h : forest.Holds parent tree) : forest.parent? tree.id = parent := by
  rw [parent?, h.node_eq]

theorem Holds.children_eq (h : forest.Holds parent tree) :
    forest.children tree.id = tree.children.map PlantedTree.id := by
  rw [children, h.node_eq]

/-- All trees at and below one that stands do so. -/
theorem Holds.forall_preorder (h : forest.Holds parent tree) :
    ∀ other ∈ tree.preorder, ∃ parent, forest.Holds parent other := by
  induction h with
  | @intro parent tree hnode hchildren ih =>
    intro other hother
    rw [preorder_eq, mem_cons] at hother
    rcases hother with rfl | hother
    · exact ⟨parent, .intro hnode hchildren⟩
    · obtain ⟨child, hchild, hmem⟩ := mem_preorderAll.mp hother
      exact ih child hchild other hmem

/-- Where the elements of a tree are the same, it stands as well. -/
theorem Holds.congr (h : forest.Holds parent tree)
    (hsame : ∀ id ∈ ids [tree], forest'.node id = forest.node id) : forest'.Holds parent tree := by
  induction h with
  | @intro parent tree hnode _ ih =>
    rw [ids_singleton] at hsame
    have hroot := hsame tree.id mem_cons_self
    refine .intro (hroot.trans hnode) fun child hchild => ih child hchild fun id hid => ?_
    exact hsame id (mem_cons_of_mem _ (ids_subset_of_mem hchild hid))

/-- A tree stands below another parent if its root is told so. -/
theorem Holds.move (h : forest.Holds parent tree) {other : Option Nat}
    (hroot : forest'.node tree.id = { forest.node tree.id with parent := other })
    (hsame : ∀ id ∈ ids tree.children, forest'.node id = forest.node id) :
    forest'.Holds other tree := by
  refine .intro (hroot.trans (by rw [h.node_eq])) fun child hchild => ?_
  exact (h.forall_children child hchild).congr fun id hid => hsame id (ids_subset_of_mem hchild hid)

end Holds

/-! ### Planting -/

/-- A forest after a tree is planted: it stands there with new ids, and all else is as before. -/
structure IsPlanted (forest forest' : Forest) (tree : PlantedTree) : Prop where
  /-- The root has the next id. -/
  id_eq : tree.id = forest.size
  /-- The tree stands, without a parent. -/
  holds : forest'.Holds none tree
  /-- The ids are new and in use. -/
  bounds : ∀ id ∈ ids [tree], forest.size ≤ id ∧ id < forest'.size
  /-- No id comes twice. -/
  nodup : (ids [tree]).Nodup
  /-- The other elements stay as they are. -/
  node_eq : ∀ id, id < forest.size → forest'.node id = forest.node id
  /-- Parents and children still agree. -/
  isLinked : forest.IsLinked → forest'.IsLinked

/-- A forest after some trees are planted and attached to an element, whose children are now
others. -/
structure Receives (forest forest' : Forest) (parent : Nat) (children : List Nat)
    (trees : List PlantedTree) : Prop where
  /-- No element goes away. -/
  size_le : forest.size ≤ forest'.size
  /-- The trees stand below the element. -/
  holds : ∀ tree ∈ trees, forest'.Holds (some parent) tree
  /-- The ids are new and in use. -/
  bounds : ∀ id ∈ ids trees, forest.size ≤ id ∧ id < forest'.size
  /-- No id comes twice. -/
  nodup : (ids trees).Nodup
  /-- The element has other children. -/
  node_parent : forest'.node parent = { forest.node parent with children := children }
  /-- The other elements stay as they are. -/
  node_eq : ∀ id, id < forest.size → id ≠ parent → forest'.node id = forest.node id
  /-- Parents and children still agree. -/
  isLinked : forest.IsLinked → forest'.IsLinked

theorem IsPlanted.size_lt {tree : PlantedTree} (h : IsPlanted forest forest' tree) :
    forest.size < forest'.size := by
  have hbounds := h.bounds tree.id (ids_singleton tree ▸ mem_cons_self)
  have hid := h.id_eq
  omega

/-- A planted tree is attached to an element that was there before. -/
theorem IsPlanted.receives {tree : PlantedTree} (h : IsPlanted forest forest' tree) {parent : Nat}
    (hparent : parent < forest.size) {place : List Nat → List Nat}
    (hplace : ∀ ids, forest.size ∈ place ids ∧ ids ⊆ place ids) :
    Receives forest (forest'.attach parent forest.size place) parent
      (place (forest.children parent)) [tree] := by
  have hsize := h.size_lt
  have hroot : forest'.parent? forest.size = none := by rw [← h.id_eq, h.holds.parent?_eq]
  have hnode := node_attach hroot hsize (hparent.trans hsize) place
  have hnodup := h.nodup
  rw [ids_singleton] at hnodup
  have hbelow : ∀ id ∈ ids tree.children, forest.size ≤ id ∧ id ≠ forest.size := by
    intro id hid
    refine ⟨(h.bounds id (ids_singleton tree ▸ mem_cons_of_mem _ hid)).1, fun hsame => ?_⟩
    rw [hsame, ← h.id_eq] at hid
    exact (nodup_cons.mp hnodup).1 hid
  constructor
  · rw [size_attach]
    exact hsize.le
  · intro other hother
    obtain rfl := mem_singleton.mp hother
    apply h.holds.move
    · rw [hnode, h.id_eq, if_pos rfl, if_neg hparent.ne']
      rfl
    · intro id hid
      have hlt := hbelow id hid
      rw [hnode, if_neg hlt.2, if_neg (by omega)]
      rfl
  · intro id hid
    rw [size_attach]
    exact h.bounds id hid
  · exact h.nodup
  · rw [hnode, if_neg hparent.ne, if_pos rfl, children, parent?, h.node_eq parent hparent]
    rfl
  · intro id hid hother
    rw [hnode, if_neg hid.ne, if_neg hother, children, parent?, h.node_eq id hid]
  · intro hlinked
    exact (h.isLinked hlinked).attach hroot hsize (hparent.trans hsize) hplace

/-- What an element receives at first is still there when it receives more. -/
theorem Receives.append {middle : Forest} {parent : Nat} {some more : List Nat}
    {trees others : List PlantedTree} (h : Receives forest middle parent some trees)
    (hmore : Receives middle forest' parent more others) (hparent : parent < forest.size) :
    Receives forest forest' parent more (trees ++ others) := by
  have hle := h.size_le
  have hle' := hmore.size_le
  constructor
  · omega
  · intro tree htree
    rcases mem_append.mp htree with htree | htree
    · refine (h.holds tree htree).congr fun id hid => ?_
      have hbounds := h.bounds id (ids_subset_of_mem htree hid)
      exact hmore.node_eq id hbounds.2 (by omega)
    · exact hmore.holds tree htree
  · intro id hid
    rw [ids_append] at hid
    rcases mem_append.mp hid with hid | hid
    · have hbounds := h.bounds id hid
      omega
    · have hbounds := hmore.bounds id hid
      omega
  · rw [ids_append]
    refine nodup_append.mpr ⟨h.nodup, hmore.nodup, fun id hid other hother hsame => ?_⟩
    have hbounds := h.bounds id hid
    have hbounds' := hmore.bounds other hother
    omega
  · rw [hmore.node_parent, h.node_parent]
  · intro id hid hne
    rw [hmore.node_eq id (by omega) hne, h.node_eq id hid hne]
  · exact fun hlinked => hmore.isLinked (h.isLinked hlinked)

/-- Trees that can be planted are attached to an element one after the other. -/
theorem receives_foldl_attach {parent : Nat} {place : Nat → List Nat → List Nat}
    (hplace : ∀ id ids, id ∈ place id ids ∧ ids ⊆ place id ids) {trees : List Tree}
    (hplant : ∀ tree ∈ trees, ∀ forest : Forest, ∃ planted : PlantedTree,
      planted.toTree = tree ∧ IsPlanted forest (forest.plant tree) planted)
    {forest : Forest} (hparent : parent < forest.size) :
    ∃ planted : List PlantedTree, planted.map toTree = trees ∧
      Receives forest
        (trees.foldl (fun forest tree =>
          (forest.plant tree).attach parent forest.size (place forest.size)) forest)
        parent ((planted.map PlantedTree.id).foldl (fun ids id => place id ids)
          (forest.children parent)) planted := by
  induction trees generalizing forest with
  | nil =>
    refine ⟨[], rfl, ⟨le_rfl, by simp, by simp [ids, preorderAll], nodup_nil, rfl, fun _ _ _ => rfl,
      fun hlinked => hlinked⟩⟩
  | cons tree rest ih =>
    obtain ⟨planted, rfl, hplanted⟩ := hplant tree mem_cons_self forest
    have hfirst := hplanted.receives hparent (hplace forest.size)
    obtain ⟨others, rfl, hothers⟩ :=
      ih (fun tree htree => hplant tree (mem_cons_of_mem _ htree)) (hparent.trans_le hfirst.size_le)
    refine ⟨planted :: others, rfl, ?_⟩
    have hchildren : ((forest.plant planted.toTree).attach parent forest.size
        (place forest.size)).children parent = place planted.id (forest.children parent) := by
      rw [children, hfirst.node_parent, hplanted.id_eq]
    rw [hchildren] at hothers
    exact hfirst.append hothers hparent

theorem plantAll_eq_foldl (forest : Forest) (parent : Nat) (trees : List Tree) :
    forest.plantAll parent trees = trees.foldl (fun forest tree =>
      (forest.plant tree).attach parent forest.size fun ids => ids ++ [forest.size]) forest := by
  induction trees generalizing forest with
  | nil => rfl
  | cons tree rest ih =>
    rw [plantAll, ih]
    rfl

theorem foldl_concat (ids more : List Nat) :
    more.foldl (fun ids id => ids ++ [id]) ids = ids ++ more := by
  induction more generalizing ids with
  | nil => rw [foldl_nil, append_nil]
  | cons id rest ih => rw [foldl_cons, ih, append_assoc, singleton_append]

/-- **A tree that is planted stands in the forest**, and nothing else is changed. -/
theorem isPlanted_plant : ∀ (tree : Tree) (forest : Forest), ∃ planted : PlantedTree,
    planted.toTree = tree ∧ IsPlanted forest (forest.plant tree) planted
  | ⟨name, attributes, trees⟩, forest => by
    have hsize := size_create forest name attributes
    have hnode := node_create forest name attributes
    have hroot : (forest.create name attributes).node forest.size =
        { name := name, attributes := attributes } := by
      rw [hnode, if_pos rfl]
    have hparent : forest.size < (forest.create name attributes).size := by omega
    obtain ⟨planted, hplanted, hreceives⟩ := receives_foldl_attach
      (fun id ids => ⟨mem_append_right ids mem_cons_self, subset_append_left ids [id]⟩)
      (fun tree _ => isPlanted_plant tree) hparent
    rw [← plantAll_eq_foldl, foldl_concat, children, hroot, nil_append] at hreceives
    refine ⟨⟨forest.size, name, attributes, planted⟩, ?_, ?_⟩
    · rw [toTree_eq, hplanted]
    rw [plant]
    constructor
    · rfl
    · exact .intro (by rw [hreceives.node_parent, hroot]) hreceives.holds
    · rw [ids_singleton, forall_mem_cons]
      have hle := hreceives.size_le
      refine ⟨⟨le_rfl, hparent.trans_le hle⟩, fun id hid => ?_⟩
      have hbounds := hreceives.bounds id hid
      omega
    · rw [ids_singleton]
      refine nodup_cons.mpr ⟨fun hmem => ?_, hreceives.nodup⟩
      have hbounds := hreceives.bounds forest.size hmem
      omega
    · intro id hid
      rw [hreceives.node_eq id (by omega) hid.ne, hnode, if_neg hid.ne]
    · exact fun hlinked => hreceives.isLinked (hlinked.create name attributes)
termination_by tree => sizeOf tree
decreasing_by
  rename_i htree
  have hlt := List.sizeOf_lt_of_mem htree
  simp only [Tree.mk.sizeOf_spec]
  omega

end Forest

end RelaxSchema
