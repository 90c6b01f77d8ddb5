import RelaxSchema.Grammar.Includes
import RelaxSchema.Proofs.Grammar.GrammarElement
import RelaxSchema.Proofs.Grammar.Planting

/-!
# Substitution in a document

What becomes of the document of a forest when trees are put in the place of one of its elements.

* `Forest.isDocument_ofTree`: the tree that a forest is made of is its document;
* `Forest.IsDocument.tree_eq`, `Forest.IsDocument.findAll_eq`, `Forest.IsDocument.grammar?_eq`: what
  is read from the forest is read from its document;
* `Forest.IsDocument.substitute`: substitution in the forest is substitution in its document, also
  for an element that was taken away from it before.

An element outside of the document has its parent outside as well, because each element with a
parent is a child of it and all children of the elements of a document are in it. So nothing that is
done to what was taken away comes near the document.
-/

namespace RelaxSchema

open List

namespace PlantedTree

/-! ### Substitution in trees -/

mutual

/-- A tree with other trees in the place of each one below it that has an id. -/
def replaceIn (id : Nat) (trees : List PlantedTree) : PlantedTree → PlantedTree
  | ⟨other, name, attributes, children⟩ => ⟨other, name, attributes, replaceAll id trees children⟩

/-- Several trees with other trees in the place of each one at or below them that has an id. -/
def replaceAll (id : Nat) (trees : List PlantedTree) : List PlantedTree → List PlantedTree
  | [] => []
  | tree :: rest =>
    (if tree.id = id then trees else [replaceIn id trees tree]) ++ replaceAll id trees rest

end

section Replace

variable {id : Nat} {trees : List PlantedTree}

theorem id_replaceIn (id : Nat) (trees : List PlantedTree) (tree : PlantedTree) :
    (tree.replaceIn id trees).id = tree.id := by
  cases tree
  rfl

theorem children_replaceIn (id : Nat) (trees : List PlantedTree) (tree : PlantedTree) :
    (tree.replaceIn id trees).children = replaceAll id trees tree.children := by
  cases tree
  rfl

theorem ids_replaceIn (id : Nat) (trees : List PlantedTree) (tree : PlantedTree) :
    ids [tree.replaceIn id trees] = tree.id :: ids (replaceAll id trees tree.children) := by
  rw [ids_singleton, id_replaceIn, children_replaceIn]

/-- The roots of the trees after the substitution. -/
theorem map_id_replaceAll (id : Nat) (trees others : List PlantedTree) :
    (replaceAll id trees others).map PlantedTree.id =
      (others.map PlantedTree.id).flatMap fun other =>
        if other = id then trees.map PlantedTree.id else [other] := by
  induction others with
  | nil => rfl
  | cons tree rest ih =>
    rw [replaceAll, map_append, ih, map_cons, flatMap_cons]
    split
    · rfl
    · rw [map_singleton, id_replaceIn]

theorem mem_replaceAll {others : List PlantedTree} {tree : PlantedTree}
    (h : tree ∈ replaceAll id trees others) :
    (tree ∈ trees ∧ ∃ other ∈ others, other.id = id) ∨
      ∃ other ∈ others, other.id ≠ id ∧ tree = other.replaceIn id trees := by
  induction others with
  | nil => simp [replaceAll] at h
  | cons first rest ih =>
    rw [replaceAll] at h
    rcases mem_append.mp h with h | h
    · split at h
      · rename_i hid
        exact .inl ⟨h, first, mem_cons_self, hid⟩
      · rename_i hid
        exact .inr ⟨first, mem_cons_self, hid, mem_singleton.mp h⟩
    · rcases ih h with ⟨hmem, other, hother, hid⟩ | ⟨other, hother, hid, htree⟩
      · exact .inl ⟨hmem, other, mem_cons_of_mem _ hother, hid⟩
      · exact .inr ⟨other, mem_cons_of_mem _ hother, hid, htree⟩

theorem mem_ids_replaceAll {others : List PlantedTree} {other : Nat}
    (h : other ∈ ids (replaceAll id trees others)) :
    other ∈ ids others ∨ (id ∈ ids others ∧ other ∈ ids trees) := by
  induction others using PlantedTree.induction with
  | nil => exact .inl h
  | cons tree rest ihchildren ihrest =>
    have hids := ids_cons tree rest
    rw [replaceAll, ids_append, mem_append] at h
    rw [hids]
    rcases h with h | h
    · split at h
      · rename_i hid
        exact .inr ⟨hid ▸ mem_cons_self, h⟩
      · rw [ids_replaceIn, mem_cons] at h
        rcases h with rfl | h
        · exact .inl mem_cons_self
        · rcases ihchildren h with hmem | ⟨hid, hmem⟩
          · exact .inl (mem_cons_of_mem _ (mem_append_left _ hmem))
          · exact .inr ⟨mem_cons_of_mem _ (mem_append_left _ hid), hmem⟩
    · rcases ihrest h with hmem | ⟨hid, hmem⟩
      · exact .inl (mem_cons_of_mem _ (mem_append_right _ hmem))
      · exact .inr ⟨mem_cons_of_mem _ (mem_append_right _ hid), hmem⟩

/-- Nothing changes where the id does not occur. -/
theorem replaceAll_of_notMem {others : List PlantedTree} (h : id ∉ ids others) :
    replaceAll id trees others = others := by
  induction others using PlantedTree.induction with
  | nil => rfl
  | cons tree rest ihchildren ihrest =>
    rw [ids_cons, mem_cons, mem_append, not_or, not_or] at h
    obtain ⟨hroot, hchildren, hrest⟩ := h
    have htree : tree.replaceIn id trees = tree := by
      cases tree
      rw [replaceIn, ihchildren hchildren]
    rw [replaceAll, if_neg (Ne.symm hroot), htree, ihrest hrest, singleton_append]

/-- No id comes twice after the substitution. -/
theorem nodup_ids_replaceAll {others : List PlantedTree} (h : (ids others).Nodup)
    (htrees : (ids trees).Nodup) (hnew : ∀ other ∈ ids trees, other ∉ ids others) :
    (ids (replaceAll id trees others)).Nodup := by
  induction others using PlantedTree.induction with
  | nil => exact nodup_nil
  | cons tree rest ihchildren ihrest =>
    have hids := ids_cons tree rest
    rw [hids, nodup_cons, nodup_append] at h
    obtain ⟨hroot, hchildren, hrest, hapart⟩ := h
    rw [hids] at hnew
    have hnewChildren : ∀ other ∈ ids trees, other ∉ ids tree.children := fun other hother hmem =>
      hnew other hother (mem_cons_of_mem _ (mem_append_left _ hmem))
    have hnewRest : ∀ other ∈ ids trees, other ∉ ids rest := fun other hother hmem =>
      hnew other hother (mem_cons_of_mem _ (mem_append_right _ hmem))
    rw [replaceAll, ids_append, nodup_append]
    by_cases hid : tree.id = id
    · have hnone : id ∉ ids rest := fun hmem => hroot (hid ▸ mem_append_right _ hmem)
      rw [if_pos hid, replaceAll_of_notMem hnone]
      refine ⟨htrees, hrest, fun other hother another hanother hsame => ?_⟩
      exact hnewRest other hother (hsame ▸ hanother)
    · rw [if_neg hid, ids_replaceIn]
      refine ⟨nodup_cons.mpr ⟨fun hmem => ?_, ihchildren hchildren hnewChildren⟩,
        ihrest hrest hnewRest, fun other hother another hanother hsame => ?_⟩
      · rcases mem_ids_replaceAll hmem with hmem | ⟨-, hmem⟩
        · exact hroot (mem_append_left _ hmem)
        · exact hnew _ hmem mem_cons_self
      · -- A new id is on the one side or on the other, since the old one is.
        subst hsame
        rcases mem_cons.mp hother with rfl | hother
        · rcases mem_ids_replaceAll hanother with hmem | ⟨-, hmem⟩
          · exact hroot (mem_append_right _ hmem)
          · exact hnew _ hmem mem_cons_self
        · rcases mem_ids_replaceAll hother with hleft | ⟨hleft, hmem⟩ <;>
            rcases mem_ids_replaceAll hanother with hright | ⟨hright, hmem'⟩
          · exact hapart _ hleft _ hright rfl
          · exact hnewChildren _ hmem' hleft
          · exact hnewRest _ hmem hright
          · exact hapart _ hleft _ hright rfl

end Replace

/-- An id below some trees is that of a child. -/
theorem exists_child_of_mem_ids {trees : List PlantedTree} {id : Nat} (h : id ∈ ids trees) :
    (∃ tree ∈ trees, tree.id = id) ∨
      ∃ tree ∈ preorderAll trees, ∃ child ∈ tree.children, child.id = id := by
  induction trees using PlantedTree.induction with
  | nil => simp [ids, preorderAll] at h
  | cons tree rest ihchildren ihrest =>
    rw [ids_cons, mem_cons, mem_append] at h
    rw [preorderAll, preorder_eq]
    rcases h with rfl | h | h
    · exact .inl ⟨tree, mem_cons_self, rfl⟩
    · right
      rcases ihchildren h with ⟨child, hchild, hid⟩ | ⟨other, hother, hchild⟩
      · exact ⟨tree, mem_cons_self, child, hchild, hid⟩
      · exact ⟨other, mem_cons_of_mem _ (mem_append_left _ hother), hchild⟩
    · rcases ihrest h with ⟨other, hother, hid⟩ | ⟨other, hother, hchild⟩
      · exact .inl ⟨other, mem_cons_of_mem _ hother, hid⟩
      · exact .inr ⟨other, mem_cons_of_mem _ (mem_append_right _ hother), hchild⟩

theorem sublist_ids_of_mem {trees : List PlantedTree} {tree : PlantedTree}
    (h : tree ∈ preorderAll trees) : ids [tree] <+ ids trees := by
  induction trees using PlantedTree.induction with
  | nil => simp [preorderAll] at h
  | cons first rest ihchildren ihrest =>
    have hids := ids_cons first rest
    rw [preorderAll, preorder_eq, cons_append, mem_cons, mem_append] at h
    rw [hids]
    rcases h with rfl | h | h
    · rw [ids_singleton]
      exact (sublist_append_left _ _).cons_cons _
    · exact ((ihchildren h).trans (sublist_append_left _ _)).cons _
    · exact ((ihrest h).trans (sublist_append_right _ _)).cons _

theorem sublist_ids_of_mem_preorder {tree other : PlantedTree} (h : other ∈ tree.preorder) :
    ids [other] <+ ids [tree] :=
  sublist_ids_of_mem (preorderAll_singleton tree ▸ h)

/-- What is in a tree has not more nodes than it. -/
theorem length_preorder_le {tree other : PlantedTree} (h : other ∈ tree.preorder) :
    other.preorder.length ≤ tree.preorder.length := by
  have hle := (sublist_ids_of_mem_preorder h).length_le
  rwa [ids, ids, length_map, length_map, preorderAll_singleton, preorderAll_singleton] at hle

theorem sublist_map_id (trees : List PlantedTree) : trees.map PlantedTree.id <+ ids trees := by
  induction trees with
  | nil => exact .slnil
  | cons tree rest ih =>
    rw [map_cons, ids_cons]
    exact (ih.trans (sublist_append_right _ _)).cons_cons _

/-! ### Nodes and their trees -/

theorem map_toTree_preorderAll (trees : List PlantedTree) :
    (preorderAll trees).map toTree = Tree.preorderAll (trees.map toTree) := by
  induction trees using PlantedTree.induction with
  | nil => rfl
  | cons tree rest ihchildren ihrest =>
    rw [preorderAll, preorder_eq, map_append, map_cons, ihchildren, ihrest, map_cons,
      Tree.preorderAll, Tree.preorder_eq, Tree.descendants, children_toTree]

theorem name_toTree (tree : PlantedTree) : tree.toTree.name = tree.name := by
  rw [toTree_eq]

theorem preorder_trans {tree other node : PlantedTree} (hother : other ∈ tree.preorder)
    (hnode : node ∈ other.preorder) : node ∈ tree.preorder := by
  suffices hall : ∀ trees : List PlantedTree, other ∈ preorderAll trees →
      node ∈ preorderAll trees by
    exact preorderAll_singleton tree ▸ hall [tree] (preorderAll_singleton tree ▸ hother)
  intro trees
  induction trees using PlantedTree.induction with
  | nil => exact fun hmem => absurd hmem not_mem_nil
  | cons first rest ihchildren ihrest =>
    rw [preorderAll, preorder_eq, cons_append, mem_cons, mem_append, mem_cons, mem_append]
    rintro (rfl | hmem | hmem)
    · rw [preorder_eq, mem_cons] at hnode
      exact hnode.imp_right Or.inl
    · exact .inr (.inl (ihchildren hmem))
    · exact .inr (.inr (ihrest hmem))

/-- The grammar element: the first one of that name. -/
def grammar? (tree : PlantedTree) : Option PlantedTree :=
  tree.preorder.find? fun node => node.name = "grammar"

/-- The first of some trees that has a name. -/
theorem find?_preorderAll_map_toTree (name : String) (trees : List PlantedTree) :
    (Tree.preorderAll (trees.map toTree)).find? (fun node => node.name = name) =
      ((preorderAll trees).find? fun node => node.name = name).map toTree := by
  rw [← map_toTree_preorderAll, find?_map]
  congr 1
  apply find?_congr
  intro node _
  exact congrArg (fun other => decide (other = name)) (name_toTree node)

theorem find?_preorder_toTree (name : String) (tree : PlantedTree) :
    tree.toTree.preorder.find? (fun node => node.name = name) =
      (tree.preorder.find? fun node => node.name = name).map toTree := by
  have hfind := find?_preorderAll_map_toTree name [tree]
  rwa [map_singleton, Tree.preorderAll, Tree.preorderAll, append_nil,
    preorderAll_singleton] at hfind

theorem grammar?_toTree (tree : PlantedTree) : tree.toTree.grammar? = tree.grammar?.map toTree := by
  rw [Tree.grammar?_eq_find?, find?_preorder_toTree, grammar?]

theorem mentions_toTree (tree : PlantedTree) (name : String) :
    tree.toTree.mentions name = (tree.preorder.find? fun node => node.name = name).isSome := by
  rw [Tree.mentions_eq_isSome_find?, find?_preorder_toTree, Option.isSome_map]

end PlantedTree

namespace Forest

open PlantedTree

variable {forest : Forest} {tree : PlantedTree}

/-! ### Documents -/

/-- A tree is the document of a forest: it stands at the root, and each id occurs in it once. -/
structure IsDocument (forest : Forest) (tree : PlantedTree) : Prop where
  /-- Its root is that of the document. -/
  id_eq : tree.id = root
  /-- The tree stands. -/
  holds : forest.Holds none tree
  /-- No id comes twice. -/
  nodup : (ids [tree]).Nodup
  /-- The ids are in use. -/
  lt_size : ∀ id ∈ ids [tree], id < forest.size
  /-- Parents and children agree. -/
  isLinked : forest.IsLinked

theorem isDocument_ofTree (tree : Tree) :
    ∃ planted : PlantedTree, planted.toTree = tree ∧ (ofTree tree).IsDocument planted := by
  obtain ⟨planted, htree, hplanted⟩ := isPlanted_plant tree {}
  have hlinked : ({} : Forest).IsLinked := by
    intro id parent hparent
    exact absurd (lt_size_of_parent? hparent) (Nat.not_lt_zero id)
  exact ⟨planted, htree, hplanted.id_eq, hplanted.holds, hplanted.nodup,
    fun id hid => (hplanted.bounds id hid).2, hplanted.isLinked hlinked⟩

/-- There are not more ids than elements. -/
theorem IsDocument.length_le (h : forest.IsDocument tree) : tree.preorder.length ≤ forest.size := by
  have hsubset : ids [tree] ⊆ range forest.size := fun id hid => mem_range.mpr (h.lt_size id hid)
  have hle := (subperm_of_subset h.nodup hsubset).length_le
  rw [ids, length_map, preorderAll_singleton, length_range] at hle
  exact hle

/-! ### Reading the document -/

/-- The tree of an element, as far down as there may be elements. -/
theorem Holds.treeWithin_eq {parent : Option Nat} (h : forest.Holds parent tree) {depth : Nat}
    (hdepth : tree.preorder.length ≤ depth + 1) :
    forest.treeWithin depth tree.id = tree.toTree := by
  induction h generalizing depth with
  | @intro parent tree hnode hchildren ih =>
    rw [toTree_eq]
    rw [preorder_eq, length_cons] at hdepth
    have hlength : ∀ child ∈ tree.children, child.preorder.length ≤ depth := by
      intro child hchild
      obtain ⟨before, after, hsplit⟩ := append_of_mem hchild
      rw [hsplit, preorderAll_append, preorderAll, length_append, length_append] at hdepth
      omega
    cases depth with
    | zero =>
      have hnone : tree.children = [] := by
        rw [eq_nil_iff_forall_not_mem]
        intro child hchild
        have hle := hlength child hchild
        rw [preorder_eq, length_cons] at hle
        omega
      rw [treeWithin, hnode, hnone]
      rfl
    | succ depth =>
      rw [treeWithin, children, hnode, map_map]
      congr 1
      exact map_congr_left fun child hchild => ih child hchild (hlength child hchild)

/-- The elements at and below some trees, if there are enough steps. -/
theorem preorder_map_id {trees : List PlantedTree} {fuel : Nat}
    (h : ∀ tree ∈ trees, ∃ parent, forest.Holds parent tree)
    (hfuel : (preorderAll trees).length ≤ fuel) :
    forest.preorder fuel (trees.map PlantedTree.id) = ids trees := by
  induction fuel generalizing trees with
  | zero =>
    have hnone : trees = [] := by
      cases trees with
      | nil => rfl
      | cons tree rest =>
        rw [preorderAll, preorder_eq, cons_append, length_cons] at hfuel
        omega
    subst hnone
    rfl
  | succ fuel ih =>
    cases trees with
    | nil => rfl
    | cons tree rest =>
      obtain ⟨⟨parent, htree⟩, hrest⟩ := forall_mem_cons.mp h
      have hpending : ∀ other ∈ tree.children ++ rest, ∃ parent, forest.Holds parent other := by
        rw [forall_mem_append]
        exact ⟨fun child hchild => ⟨_, htree.forall_children child hchild⟩, hrest⟩
      have hlength : (preorderAll (tree.children ++ rest)).length ≤ fuel := by
        rw [preorderAll, preorder_eq, cons_append, length_cons, ← preorderAll_append] at hfuel
        omega
      rw [map_cons, preorder, htree.children_eq, ← map_append, ih hpending hlength,
        ids_append, ids_cons]

/-- The tree of an id of the document. -/
theorem IsDocument.exists_mem_preorder (h : forest.IsDocument tree) {id : Nat}
    (hid : id ∈ ids [tree]) :
    ∃ other parent, other.id = id ∧ other ∈ tree.preorder ∧ forest.Holds parent other := by
  obtain ⟨other, hother, rfl⟩ := mem_map.mp hid
  rw [preorderAll_singleton] at hother
  obtain ⟨parent, hholds⟩ := h.holds.forall_preorder other hother
  exact ⟨other, parent, rfl, hother, hholds⟩

/-- All elements below one that stands have a parent. -/
theorem Holds.exists_parent {upper : Option Nat} (h : forest.Holds upper tree) {id : Nat}
    (hid : id ∈ ids tree.children) : ∃ parent, forest.parent? id = some parent := by
  rcases exists_child_of_mem_ids hid with ⟨child, hchild, rfl⟩ | ⟨other, hother, child, hchild, rfl⟩
  · exact ⟨tree.id, (h.forall_children child hchild).parent?_eq⟩
  · obtain ⟨parent, hholds⟩ := h.forall_preorder other (mem_preorder_of_below hother)
    exact ⟨other.id, (hholds.forall_children child hchild).parent?_eq⟩

/-- The document has all children of its elements. -/
theorem IsDocument.mem_ids_of_parent (h : forest.IsDocument tree) {element parent : Nat}
    (hmem : parent ∈ ids [tree]) (hparent : forest.parent? element = some parent) :
    element ∈ ids [tree] := by
  obtain ⟨other, upper, rfl, hother, hholds⟩ := h.exists_mem_preorder hmem
  have hchild := h.isLinked element other.id hparent
  rw [hholds.children_eq] at hchild
  have hbelow : element ∈ ids [other] :=
    ids_singleton other ▸ mem_cons_of_mem _ ((sublist_map_id _).subset hchild)
  exact (sublist_ids_of_mem_preorder hother).subset hbelow

/-- The root of the document has no parent. -/
theorem IsDocument.ne_of_parent (h : forest.IsDocument tree) {element parent : Nat}
    (hparent : forest.parent? element = some parent) : tree.id ≠ element := by
  intro hsame
  rw [← hsame, h.holds.parent?_eq] at hparent
  simp at hparent

/-- No element of the document is its own parent. -/
theorem IsDocument.ne_parent (h : forest.IsDocument tree) {element parent : Nat}
    (hmem : element ∈ ids tree.children) (hparent : forest.parent? element = some parent) :
    element ≠ parent := by
  rintro rfl
  have hmem' : element ∈ ids [tree] := ids_singleton tree ▸ mem_cons_of_mem _ hmem
  obtain ⟨other, upper, rfl, hother, hholds⟩ := h.exists_mem_preorder hmem'
  have hchild := h.isLinked other.id other.id hparent
  rw [hholds.children_eq] at hchild
  have hnodup := h.nodup.sublist (sublist_ids_of_mem_preorder hother)
  rw [ids_singleton] at hnodup
  exact (nodup_cons.mp hnodup).1 ((sublist_map_id _).subset hchild)

section Read

variable (h : forest.IsDocument tree) {other : PlantedTree} (hother : other ∈ tree.preorder)

include h hother

theorem IsDocument.exists_holds : ∃ parent, forest.Holds parent other :=
  h.holds.forall_preorder other hother

/-- The tree of an element of the document. -/
theorem IsDocument.tree_eq : forest.tree other.id = other.toTree := by
  obtain ⟨parent, hholds⟩ := h.exists_holds hother
  have hle := (length_preorder_le hother).trans h.length_le
  exact hholds.treeWithin_eq (hle.trans (Nat.le_succ _))

/-- The trees of its children. -/
theorem IsDocument.map_tree_children :
    (forest.children other.id).map forest.tree = other.toTree.children := by
  obtain ⟨parent, hholds⟩ := h.exists_holds hother
  rw [hholds.children_eq, children_toTree, map_map]
  apply map_congr_left
  intro child hchild
  have hbelow := mem_preorder_of_below (mem_preorderAll_of_mem hchild)
  exact h.tree_eq (preorder_trans hother hbelow)

/-- No element comes twice below one of the document. -/
theorem IsDocument.nodup_ids_children : (ids other.children).Nodup := by
  have hids := h.nodup.sublist (sublist_ids_of_mem_preorder hother)
  rw [ids_singleton] at hids
  exact (nodup_cons.mp hids).2

/-- The elements below one of the document. -/
theorem IsDocument.descendants_eq : forest.descendants other.id = ids other.children := by
  obtain ⟨parent, hholds⟩ := h.exists_holds hother
  have hle := (length_preorder_le hother).trans h.length_le
  rw [preorder_eq, length_cons] at hle
  rw [descendants, hholds.children_eq]
  exact preorder_map_id (fun child hchild => ⟨_, hholds.forall_children child hchild⟩) (by omega)

theorem IsDocument.isNamed_eq (name : String) :
    forest.isNamed other.id name = decide (other.name = name) := by
  obtain ⟨parent, hholds⟩ := h.exists_holds hother
  rw [isNamed, hholds.node_eq]

/-- The elements of a name below one of the document. -/
theorem IsDocument.findAll_eq (name : String) : forest.findAll other.id name =
    ((preorderAll other.children).filter fun node => node.name = name).map PlantedTree.id := by
  rw [findAll, h.descendants_eq hother, ids, filter_map]
  congr 1
  apply filter_congr
  intro node hnode
  exact h.isNamed_eq (preorder_trans hother (mem_preorder_of_below hnode)) name

end Read

/-- The grammar element of the document. -/
theorem IsDocument.grammar?_eq (h : forest.IsDocument tree) :
    forest.grammar? = tree.grammar?.map PlantedTree.id := by
  have hroot := self_mem_preorder tree
  have hdescendants := h.descendants_eq hroot
  have hnamed := h.isNamed_eq hroot "grammar"
  rw [h.id_eq] at hdescendants hnamed
  rw [grammar?, hnamed, PlantedTree.grammar?, find?, hdescendants, ids, find?_map, preorder_eq]
  by_cases hname : tree.name = "grammar"
  · rw [find?_cons_of_pos (by simpa using hname), if_pos (by simpa using hname),
      Option.map_some, h.id_eq]
  · rw [find?_cons_of_neg (by simpa using hname), if_neg (by simpa using hname)]
    congr 1
    apply find?_congr
    intro node hnode
    exact h.isNamed_eq (mem_preorder_of_below hnode) "grammar"

/-! ### Substitution in the forest -/

theorem subset_putBefore (id reference : Nat) (ids : List Nat) :
    id ∈ putBefore id reference ids ∧ ids ⊆ putBefore id reference ids := by
  induction ids with
  | nil => simp [putBefore]
  | cons head rest ih =>
    rw [putBefore]
    split
    · exact ⟨mem_cons_self, subset_cons_self _ _⟩
    · exact ⟨mem_cons_of_mem _ ih.1, cons_subset_cons _ ih.2⟩

theorem putBefore_append {id reference : Nat} {before : List Nat} (h : reference ∉ before)
    (after : List Nat) :
    putBefore id reference (before ++ reference :: after) = before ++ id :: reference :: after := by
  induction before with
  | nil => rw [nil_append, putBefore, if_pos rfl, nil_append]
  | cons head rest ih =>
    rw [mem_cons, not_or] at h
    rw [cons_append, putBefore, if_neg (Ne.symm h.1), ih h.2, cons_append]

theorem foldl_putBefore {reference : Nat} {before more : List Nat} (hbefore : reference ∉ before)
    (hmore : reference ∉ more) (after : List Nat) :
    more.foldl (fun ids id => putBefore id reference ids) (before ++ reference :: after) =
      before ++ more ++ reference :: after := by
  induction more generalizing before with
  | nil => rw [foldl_nil, append_nil]
  | cons id rest ih =>
    rw [mem_cons, not_or] at hmore
    have hnext : reference ∉ before ++ [id] := by
      rw [mem_append, mem_singleton, not_or]
      exact ⟨hbefore, hmore.1⟩
    rw [foldl_cons, putBefore_append hbefore, append_cons, ih hnext hmore.2, append_assoc before,
      singleton_append]

theorem flatMap_of_notMem {reference : Nat} {ids : List Nat} (h : reference ∉ ids)
    (more : List Nat) : (ids.flatMap fun id => if id = reference then more else [id]) = ids := by
  induction ids with
  | nil => rfl
  | cons head rest ih =>
    rw [mem_cons, not_or] at h
    rw [flatMap_cons, if_neg (Ne.symm h.1), ih h.2, singleton_append]

/-- Ids that are put before another one stand in its place after that is taken away. -/
theorem filter_foldl_putBefore {reference : Nat} {ids more : List Nat} (hnodup : ids.Nodup)
    (hmem : reference ∈ ids) (hmore : reference ∉ more) :
    ((more.foldl (fun ids id => putBefore id reference ids) ids).filter fun id => id ≠ reference) =
      ids.flatMap fun id => if id = reference then more else [id] := by
  obtain ⟨before, after, rfl⟩ := append_of_mem hmem
  obtain ⟨-, hafter, hapart⟩ := nodup_append.mp hnodup
  have hbefore : reference ∉ before := fun hin => hapart _ hin _ mem_cons_self rfl
  have hafter : reference ∉ after := (nodup_cons.mp hafter).1
  have hkept : ∀ ids : List Nat, reference ∉ ids → (ids.filter fun id => id ≠ reference) = ids := by
    intro ids hids
    apply filter_eq_self.mpr
    intro id hid
    have hne : id ≠ reference := fun hsame => hids (hsame ▸ hid)
    exact decide_eq_true hne
  rw [foldl_putBefore hbefore hmore, filter_append, filter_append, filter_cons_of_neg (by simp),
    hkept before hbefore, hkept more hmore, hkept after hafter, flatMap_append, flatMap_cons,
    if_pos rfl, flatMap_of_notMem hbefore, flatMap_of_notMem hafter, append_assoc]

/-- A forest after trees are put in the place of an element. -/
structure IsSubstituted (forest forest' : Forest) (parent element : Nat)
    (trees : List PlantedTree) : Prop where
  /-- The trees stand where the element stood. -/
  holds : ∀ tree ∈ trees, forest'.Holds (some parent) tree
  /-- Their ids are new and in use. -/
  bounds : ∀ id ∈ ids trees, forest.size ≤ id ∧ id < forest'.size
  /-- No id comes twice. -/
  nodup : (ids trees).Nodup
  /-- No element goes away. -/
  size_le : forest.size ≤ forest'.size
  /-- The element has no parent any more. -/
  node_element : element ≠ parent →
    forest'.node element = { forest.node element with parent := none }
  /-- Its parent has the trees as children instead. -/
  node_parent : element ≠ parent → (forest.children parent).Nodup → forest'.node parent =
    { forest.node parent with
      children := (forest.children parent).flatMap fun child =>
        if child = element then trees.map PlantedTree.id else [child] }
  /-- The other elements stay as they are. -/
  node_eq : ∀ id, id < forest.size → id ≠ parent → id ≠ element → forest'.node id = forest.node id
  /-- The attributes of all elements stay as they are. -/
  attributes_eq : ∀ id, id < forest.size →
    (forest'.node id).attributes = (forest.node id).attributes
  /-- The parents of all others stay as they are. -/
  parent?_eq : ∀ id, id < forest.size → id ≠ element → forest'.parent? id = forest.parent? id
  /-- Parents and children still agree. -/
  isLinked : forest'.IsLinked

/-- An element that was there before has the same place and attributes after trees are received. -/
theorem Receives.node_of_lt {forest forest' : Forest} {parent : Nat} {children : List Nat}
    {trees : List PlantedTree} (h : Receives forest forest' parent children trees) {id : Nat}
    (hid : id < forest.size) :
    forest'.node id = { forest.node id with children := forest'.children id } := by
  by_cases hsame : id = parent
  · rw [Forest.children, hsame, h.node_parent]
  · rw [Forest.children, h.node_eq id hid hsame]

/-- Trees are put in the place of an element if its parent receives them before it, and it is taken
away afterwards. -/
theorem Receives.isSubstituted {forest middle : Forest} (hlinked : forest.IsLinked)
    {parent element : Nat} (hparent : forest.parent? element = some parent)
    {trees : List PlantedTree} (h : Receives forest middle parent ((trees.map PlantedTree.id).foldl
      (fun ids id => putBefore id element ids) (forest.children parent)) trees) :
    IsSubstituted forest (middle.detach element) parent element trees := by
  have helement := lt_size_of_parent? hparent
  have hlt := hlinked.parent_lt_size hparent
  have hle := h.size_le
  have hsize : (middle.detach element).size = middle.size := size_detach middle element
  have hparent' : middle.parent? element = some parent := by
    rw [parent?, h.node_of_lt helement]
    exact hparent
  have hnode := node_detach hparent' (helement.trans_le hle) (hlt.trans_le hle)
  constructor
  · intro tree htree
    refine (h.holds tree htree).congr fun id hid => ?_
    have hbounds := h.bounds id (ids_subset_of_mem htree hid)
    rw [hnode, if_neg (by omega), if_neg (by omega)]
    rfl
  · rw [hsize]
    exact h.bounds
  · exact h.nodup
  · rw [hsize]
    exact hle
  · intro hne
    rw [hnode, if_neg hne, if_pos rfl, Forest.children, h.node_eq element helement hne]
  · intro hne hnodup
    have hfresh : element ∉ trees.map PlantedTree.id := by
      intro hin
      have hbounds := h.bounds element ((sublist_map_id trees).subset hin)
      omega
    have hchildren := filter_foldl_putBefore hnodup (hlinked element parent hparent) hfresh
    rw [hnode, if_pos rfl, if_neg (Ne.symm hne), Forest.children, parent?, h.node_parent]
    show ForestNode.mk _ _ _ _ = ForestNode.mk _ _ _ _
    rw [hchildren]
  · intro id hid hne hne'
    rw [hnode, if_neg hne, if_neg hne', Forest.children, parent?, h.node_eq id hid hne]
  · intro id hid
    rw [hnode, h.node_of_lt hid]
  · intro id hid hne
    rw [parent?, hnode, if_neg hne, parent?, h.node_of_lt hid]
    rfl
  · exact (h.isLinked hlinked).detach hparent'

theorem exists_isSubstituted {forest : Forest} (hlinked : forest.IsLinked) {parent element : Nat}
    (hparent : forest.parent? element = some parent) (other : Forest) (children : List Nat) :
    ∃ trees : List PlantedTree, trees.map toTree = children.map other.tree ∧
      IsSubstituted forest (forest.substitute parent element other children) parent
        element trees := by
  have hplanted : ∀ tree ∈ children.map other.tree, ∀ forest : Forest,
      ∃ planted : PlantedTree, planted.toTree = tree ∧
        IsPlanted forest (forest.plant tree) planted :=
    fun tree _ => isPlanted_plant tree
  obtain ⟨trees, htrees, hreceives⟩ := receives_foldl_attach
    (fun id ids => subset_putBefore id element ids) hplanted (hlinked.parent_lt_size hparent)
  exact ⟨trees, htrees, hreceives.isSubstituted hlinked hparent⟩

section Substitute

variable {forest' : Forest} {parent element : Nat} {trees : List PlantedTree}

/-- A tree of the document stands with the trees in the place of the element. -/
theorem Holds.substitute {upper : Option Nat} (h : forest.Holds upper tree)
    (hparent : forest.parent? element = some parent) (hne : element ≠ parent)
    (hsubstituted : IsSubstituted forest forest' parent element trees) (hroot : tree.id ≠ element)
    (hlt : ∀ id ∈ ids [tree], id < forest.size) (hnodup : (ids [tree]).Nodup) :
    forest'.Holds upper (tree.replaceIn element trees) := by
  induction h with
  | @intro upper tree hnode hchildren ih =>
    rw [ids_singleton] at hlt hnodup
    have hsize := hlt tree.id mem_cons_self
    have hids : (tree.children.map PlantedTree.id).Nodup :=
      (nodup_cons.mp hnodup).2.sublist (sublist_map_id _)
    -- A child of that id makes the tree the parent.
    have hfound : ∀ child ∈ tree.children, child.id = element → tree.id = parent := by
      intro child hchild hid
      have hupper := (hchildren child hchild).parent?_eq
      rw [hid, hparent] at hupper
      exact (Option.some.inj hupper).symm
    obtain ⟨id, name, attributes, children⟩ := tree
    rw [replaceIn]
    refine .intro ?_ fun child hchild => ?_
    · show forest'.node id = ⟨name, attributes, (replaceAll element trees children).map _, upper⟩
      rw [map_id_replaceAll]
      by_cases hid : id = parent
      · subst hid
        have hchildrenEq : forest.children id = children.map PlantedTree.id := by
          rw [Forest.children, hnode]
        rw [hsubstituted.node_parent hne (hchildrenEq ▸ hids), hchildrenEq, hnode]
      · have hnone : element ∉ children.map PlantedTree.id := by
          intro hin
          obtain ⟨child, hchild, hsame⟩ := mem_map.mp hin
          exact hid (hfound child hchild hsame)
        rw [flatMap_of_notMem hnone, hsubstituted.node_eq id hsize hid hroot]
        exact hnode
    · rcases mem_replaceAll hchild with ⟨hmem, other, hother, hsame⟩ | ⟨other, hother, hsame, rfl⟩
      · have hid : id = parent := hfound other hother hsame
        exact hid ▸ hsubstituted.holds child hmem
      · have hsubset := ids_subset_of_mem hother
        refine ih other hother hsame (fun id hid => hlt id (mem_cons_of_mem _ (hsubset hid))) ?_
        exact (nodup_cons.mp hnodup).2.sublist (sublist_ids_of_mem (mem_preorderAll_of_mem hother))

/-- The document stands with the trees in the place of the element, which may be outside of it. -/
theorem IsDocument.holds_substitute (h : forest.IsDocument tree)
    (hparent : forest.parent? element = some parent)
    (hsubstituted : IsSubstituted forest forest' parent element trees) :
    forest'.Holds none (tree.replaceIn element trees) := by
  have hroot := h.ne_of_parent hparent
  by_cases hmem : element ∈ ids tree.children
  · exact h.holds.substitute hparent (h.ne_parent hmem hparent) hsubstituted hroot h.lt_size h.nodup
  · -- The document does not have the parent either, so all its elements stay as they are.
    have hnotMem : element ∉ ids [tree] := by
      rw [ids_singleton, mem_cons, not_or]
      exact ⟨Ne.symm hroot, hmem⟩
    have hsame : tree.replaceIn element trees = tree := by
      obtain ⟨id, name, attributes, children⟩ := tree
      rw [replaceIn, replaceAll_of_notMem hmem]
    rw [hsame]
    refine h.holds.congr fun id hid => hsubstituted.node_eq id (h.lt_size id hid) ?_ ?_
    · rintro rfl
      exact hnotMem (h.mem_ids_of_parent hid hparent)
    · rintro rfl
      exact hnotMem hid

/-- **Substitution in the forest is substitution in its document.** -/
theorem IsDocument.substitute (h : forest.IsDocument tree)
    (hparent : forest.parent? element = some parent)
    (hsubstituted : IsSubstituted forest forest' parent element trees) :
    forest'.IsDocument (tree.replaceIn element trees) := by
  have hids := ids_singleton tree
  have hnodup := nodup_cons.mp (hids ▸ h.nodup)
  have hnew : ∀ id ∈ ids trees, id ∉ ids [tree] := by
    intro id hid hmem
    have hbounds := hsubstituted.bounds id hid
    have hlt := h.lt_size id hmem
    omega
  have hsub : ids tree.children ⊆ ids [tree] := hids ▸ subset_cons_self _ _
  refine ⟨(id_replaceIn element trees tree).trans h.id_eq, h.holds_substitute hparent hsubstituted,
    ?_, ?_, hsubstituted.isLinked⟩
  · rw [ids_replaceIn]
    refine nodup_cons.mpr ⟨fun hmem => ?_, nodup_ids_replaceAll hnodup.2 hsubstituted.nodup
      fun id hid hmem => hnew id hid (hsub hmem)⟩
    rcases mem_ids_replaceAll hmem with hmem | ⟨-, hmem⟩
    · exact hnodup.1 hmem
    · exact hnew tree.id hmem (hids ▸ mem_cons_self)
  · intro id hid
    rw [ids_replaceIn, mem_cons] at hid
    have hle := hsubstituted.size_le
    rcases hid with rfl | hid
    · have hlt := h.lt_size tree.id (hids ▸ mem_cons_self)
      omega
    · rcases mem_ids_replaceAll hid with hmem | ⟨-, hmem⟩
      · have hlt := h.lt_size id (hsub hmem)
        omega
      · exact (hsubstituted.bounds id hmem).2

end Substitute

end Forest

end RelaxSchema
