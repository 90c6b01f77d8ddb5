import RelaxSchema.Proofs.Grammar.NormalForm

/-!
# Where the nodes of the normal form come from

* `NormalForm.isMadeOf_normalise`: every node of the normal form has the label of a node of the
  content, and is a leaf if that one is.

The passes move nodes up and drop nodes, but give no node a new label and put nothing into a leaf.
As with frames, a pass may be looked at for a node whose children are done
(`NormalForm.isMadeOf_of_step`). The frame itself does not tell this, for it does not show
repetitions of nothing that a leaf might have got.
-/

namespace RelaxSchema

open List RelaxSchema.Tree

namespace NormalForm

/-- The node has the label of the other, and is a leaf if that is one. -/
def StandsFor (node source : Tree) : Prop :=
  node.name = source.name ∧ node.attributes = source.attributes ∧
    (source.children = [] → node.children = [])

/-- Each node of the second trees stands for one of the first. -/
def IsMadeOf (trees trees' : List Tree) : Prop :=
  ∀ node ∈ preorderAll trees', ∃ source ∈ preorderAll trees, StandsFor node source

section Trees

variable {trees trees' trees'' : List Tree}

theorem isMadeOf_of_subset (h : preorderAll trees' ⊆ preorderAll trees) : IsMadeOf trees trees' :=
  fun node hnode => ⟨node, h hnode, rfl, rfl, id⟩

theorem IsMadeOf.trans (h : IsMadeOf trees trees') (h' : IsMadeOf trees' trees'') :
    IsMadeOf trees trees'' := by
  intro node hnode
  obtain ⟨middle, hmiddle, hname, hattributes, hleaf⟩ := h' node hnode
  obtain ⟨source, hsource, hname', hattributes', hleaf'⟩ := h middle hmiddle
  exact ⟨source, hsource, hname.trans hname', hattributes.trans hattributes', hleaf ∘ hleaf'⟩

theorem IsMadeOf.cons {tree tree' : Tree} (h : IsMadeOf [tree] [tree'])
    (hrest : IsMadeOf trees trees') : IsMadeOf (tree :: trees) (tree' :: trees') := by
  intro node hnode
  rw [preorderAll, mem_append, ← mem_preorderAll_singleton] at hnode
  rw [preorderAll]
  rcases hnode with hnode | hnode
  · obtain ⟨source, hsource, hstands⟩ := h node hnode
    exact ⟨source, mem_append_left _ (mem_preorderAll_singleton.mp hsource), hstands⟩
  · obtain ⟨source, hsource, hstands⟩ := hrest node hnode
    exact ⟨source, mem_append_right _ hsource, hstands⟩

/-- The children of a node may be changed, unless something is put into a leaf. -/
theorem IsMadeOf.node (h : IsMadeOf trees trees') (hleaf : trees = [] → trees' = []) (name : String)
    (attributes : Catalogue String) :
    IsMadeOf [⟨name, attributes, trees⟩] [⟨name, attributes, trees'⟩] := by
  intro node hnode
  rw [mem_preorderAll_singleton, preorder, mem_cons] at hnode
  rcases hnode with rfl | hnode
  · exact ⟨_, mem_preorderAll_singleton.mpr (self_mem_preorder _), rfl, rfl, hleaf⟩
  · obtain ⟨source, hsource, hstands⟩ := h node hnode
    exact ⟨source, mem_preorderAll_singleton.mpr (mem_preorder_of_below hsource), hstands⟩

end Trees

/-! ### The passes -/

section Step

variable {pass : Tree → Tree}

mutual

/-- A pass makes nodes of nodes if it does so for a node whose children are done. -/
theorem isMadeOf_of_step (hstep : ∀ tree, IsMadeOf [withChildren pass tree] [pass tree]) :
    ∀ tree, IsMadeOf [tree] [pass tree]
  | ⟨name, attributes, children⟩ =>
    ((isMadeOf_map_of_step hstep children).node map_eq_nil_iff.mpr name attributes).trans (hstep _)

theorem isMadeOf_map_of_step (hstep : ∀ tree, IsMadeOf [withChildren pass tree] [pass tree]) :
    ∀ trees, IsMadeOf trees (trees.map pass)
  | [] => isMadeOf_of_subset (Subset.refl _)
  | tree :: rest => (isMadeOf_of_step hstep tree).cons (isMadeOf_map_of_step hstep rest)

end

end Step

theorem preorderAll_flatMap_spliceChoice_subset (trees : List Tree) :
    preorderAll (trees.flatMap spliceChoice) ⊆ preorderAll trees := by
  intro node hnode
  obtain ⟨spliced, hspliced, hnode⟩ := mem_preorderAll.mp hnode
  obtain ⟨tree, htree, hspliced⟩ := mem_flatMap.mp hspliced
  refine mem_preorderAll.mpr ⟨tree, htree, ?_⟩
  unfold spliceChoice at hspliced
  split at hspliced
  · exact mem_preorder_of_below (mem_preorderAll.mpr ⟨spliced, hspliced, hnode⟩)
  · rwa [← mem_singleton.mp hspliced]

theorem isMadeOf_flattenChoicesAll (trees : List Tree) :
    IsMadeOf trees (flattenChoicesAll trees) := by
  rw [flattenChoicesAll_eq_map]
  refine isMadeOf_map_of_step (fun tree => ?_) trees
  obtain ⟨name, attributes, children⟩ := tree
  rw [flattenChoices, flattenChoicesAll_eq_map, withChildren]
  refine IsMadeOf.node ?_ ?_ name attributes
  · split
    · exact isMadeOf_of_subset (preorderAll_flatMap_spliceChoice_subset _)
    · exact isMadeOf_of_subset (Subset.refl _)
  · intro hchildren
    simp [hchildren]

theorem preorder_onlyChoice_subset (tree : Tree) : (onlyChoice tree).preorder ⊆ tree.preorder := by
  unfold onlyChoice
  split
  · rename_i attributes only
    intro node hnode
    exact mem_preorder_of_below (mem_preorderAll_singleton.mpr hnode)
  · exact Subset.refl _

theorem isMadeOf_collapseChoicesAll (trees : List Tree) :
    IsMadeOf trees (collapseChoicesAll trees) := by
  rw [collapseChoicesAll_eq_map]
  refine isMadeOf_map_of_step (fun tree => isMadeOf_of_subset fun node hnode => ?_) trees
  obtain ⟨name, attributes, children⟩ := tree
  rw [mem_preorderAll_singleton, collapseChoices, collapseChoicesAll_eq_map] at hnode
  exact mem_preorderAll_singleton.mpr (preorder_onlyChoice_subset _ hnode)

theorem isMadeOf_unwrapTextAll (trees : List Tree) : IsMadeOf trees (unwrapTextAll trees) := by
  rw [unwrapTextAll_eq_map]
  refine isMadeOf_map_of_step (fun tree => isMadeOf_of_subset ?_) trees
  obtain ⟨name, attributes, children⟩ := tree
  unfold unwrapText withChildren
  split
  · rename_i textAttributes textChildren hskippable
    -- The text stands below the wrapper already.
    have htext : unwrapText ⟨"text", textAttributes, textChildren⟩ =
        ⟨"text", textAttributes, unwrapTextAll textChildren⟩ :=
      @unwrapText_kept ⟨"text", textAttributes, textChildren⟩ fun htext =>
        absurd htext Bool.false_ne_true
    intro node hnode
    refine mem_preorderAll_singleton.mpr (mem_preorder_of_below ?_)
    rwa [map_singleton, htext]
  · rw [unwrapTextAll_eq_map]
    exact Subset.refl _

theorem dropEmpty_sublist_map (trees : List Tree) :
    dropEmpty trees <+ trees.map dropEmptyBelow := by
  induction trees with
  | nil => exact .slnil
  | cons tree rest ih =>
    rw [dropEmpty, map_cons]
    split
    · exact ih.cons _
    · exact ih.cons_cons _

theorem isMadeOf_dropEmpty (trees : List Tree) : IsMadeOf trees (dropEmpty trees) := by
  have hdropped : ∀ trees, IsMadeOf (trees.map dropEmptyBelow) (dropEmpty trees) := fun trees =>
    isMadeOf_of_subset (preorderAll_subset (dropEmpty_sublist_map trees).subset)
  refine (isMadeOf_map_of_step (fun tree => ?_) trees).trans (hdropped trees)
  obtain ⟨name, attributes, children⟩ := tree
  rw [dropEmptyBelow, withChildren]
  refine (hdropped children).node (fun hchildren => ?_) name attributes
  exact sublist_nil.mp (hchildren ▸ dropEmpty_sublist_map children)

/-- **The normal form is made of nodes of the content**, and no leaf gets children. -/
theorem isMadeOf_normalise (trees : List Tree) : IsMadeOf trees (normalise trees) := by
  rw [normalise]
  exact (((isMadeOf_flattenChoicesAll trees).trans (isMadeOf_collapseChoicesAll _)).trans
    (isMadeOf_unwrapTextAll _)).trans (isMadeOf_dropEmpty _)

end NormalForm

end RelaxSchema
