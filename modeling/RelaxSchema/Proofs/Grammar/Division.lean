import RelaxSchema.Grammar.AttributeNames
import RelaxSchema.Proofs.Grammar.Frame
import RelaxSchema.Proofs.Grammar.References

/-!
# The division of content

The expanded blocks of an element are divided into those that are or hold attributes and the others.

* `Tree.attributeOccurrences_filter`: no attribute is missed for looking only at the first ones,
  where an attribute counts if it is reached through groups, choices and repetitions;
* `Definitions.mem_occurrences_divide`: the content model of the others has the tokens of their
  leaves, although the normal form is taken first.
-/

namespace RelaxSchema

open List RelaxSchema.Tree

/-! ### Attributes -/

namespace Tree

mutual

/-- A tree and the nodes below it with only nodes of some names on the way, in document order. -/
def nodesThrough (names : List String) : Tree → List Tree
  | ⟨name, attributes, children⟩ =>
    ⟨name, attributes, children⟩ :: if name ∈ names then nodesThroughAll names children else []

/-- Several trees and the nodes below them with only nodes of some names on the way. -/
def nodesThroughAll (names : List String) : List Tree → List Tree
  | [] => []
  | tree :: rest => nodesThrough names tree ++ nodesThroughAll names rest

end

/-- The names of the nodes through which an attribute of an element is found. -/
def attributeWrappers : List String := ["group", "choice", "optional", "oneOrMore", "zeroOrMore"]

/-- The name of an attribute, if it carries one. -/
def attributeName? (tree : Tree) : Option String :=
  if tree.name = "attribute" then tree.attribute? "name" else none

theorem isTransparent_iff {name : String} :
    isTransparent name = true ↔ name ∈ attributeWrappers := by
  simp [isTransparent, attributeWrappers, or_assoc]

mutual

theorem attributesAt_eq : ∀ tree : Tree,
    attributesAt tree = (nodesThrough attributeWrappers tree).filterMap attributeName?
  | ⟨name, attributes, children⟩ => by
    have hchildren := attributeOccurrences_eq children
    rw [attributesAt, nodesThrough, filterMap_cons]
    by_cases hattribute : name = "attribute"
    · subst hattribute
      rw [if_pos rfl, if_neg (by decide)]
      have hname : attributeName? ⟨"attribute", attributes, children⟩ = attributes.find? "name" :=
        rfl
      rw [hname]
      cases attributes.find? "name" <;> rfl
    · have hnone : attributeName? ⟨name, attributes, children⟩ = none := if_neg hattribute
      simp only [hnone, if_neg hattribute, isTransparent_iff, hchildren]
      split <;> rfl

theorem attributeOccurrences_eq : ∀ trees : List Tree,
    attributeOccurrences trees = (nodesThroughAll attributeWrappers trees).filterMap attributeName?
  | [] => rfl
  | tree :: rest => by
    rw [attributeOccurrences, nodesThroughAll, filterMap_append, attributesAt_eq tree,
      attributeOccurrences_eq rest]

end

mutual

theorem nodesThrough_subset (names : List String) :
    ∀ tree : Tree, nodesThrough names tree ⊆ tree.preorder
  | ⟨name, attributes, children⟩ => by
    rw [nodesThrough, preorder]
    refine cons_subset_cons _ ?_
    split
    · exact nodesThroughAll_subset names children
    · exact nil_subset _

theorem nodesThroughAll_subset (names : List String) : ∀ trees : List Tree,
    nodesThroughAll names trees ⊆ preorderAll trees
  | [] => nil_subset _
  | tree :: rest => by
    rw [nodesThroughAll, preorderAll]
    exact append_subset.mpr ⟨Subset.trans (nodesThrough_subset names tree) (subset_append_left _ _),
      Subset.trans (nodesThroughAll_subset names rest) (subset_append_right _ _)⟩

end

theorem name_ne_of_mentions {tree : Tree} {name : String} (h : tree.mentions name = false) :
    ∀ node ∈ tree.preorder, node.name ≠ name :=
  fun node hnode hname => by simpa [hname] using any_eq_false.mp h node hnode

theorem attributesAt_of_mentions {tree : Tree} (h : tree.mentions "attribute" = false) :
    attributesAt tree = [] := by
  rw [attributesAt_eq, filterMap_eq_nil_iff]
  exact fun node hnode => if_neg (name_ne_of_mentions h node (nodesThrough_subset _ tree hnode))

/-- **No attribute is missed** in the blocks that are set aside. -/
theorem attributeOccurrences_filter (blocks : List Tree) :
    attributeOccurrences (blocks.filter fun block => block.mentions "attribute") =
      attributeOccurrences blocks := by
  induction blocks with
  | nil => rfl
  | cons block rest ih =>
    rw [filter_cons, attributeOccurrences, ← ih]
    split
    · rfl
    · rename_i hmentions
      rw [attributesAt_of_mentions (Bool.eq_false_of_not_eq_true hmentions)]
      rfl

end Tree

/-! ### Expanded blocks -/

namespace Expansion

variable {bodies : Catalogue (List Tree)} {trees blocks : List Tree}

/-- Blocks have leaves for elements, and nodes that expansion keeps. -/
theorem Inlines.forall_preorderAll (h : Inlines bodies trees blocks) : ∀ node ∈ preorderAll blocks,
    isLeaf node.name = false ∨ ∃ name, node = leaf name := by
  induction h with
  | nil => exact fun _ hnode => absurd hnode not_mem_nil
  | element _ _ _ ih => exact forall_mem_cons.mpr ⟨.inr ⟨_, rfl⟩, ih⟩
  | ref _ _ _ _ ih ih' =>
    intro node hnode
    rw [preorderAll_append, mem_append] at hnode
    exact hnode.elim (ih node) (ih' node)
  | dropped _ _ ih => exact ih
  | kept hleaf _ _ ih ih' =>
    intro node hnode
    rw [preorderAll, preorder, mem_append, mem_cons] at hnode
    rcases hnode with (rfl | hnode) | hnode
    · exact .inl hleaf
    · exact ih node hnode
    · exact ih' node hnode

/-- Each element of the blocks is the leaf of one that is met. -/
theorem Inlines.exists_element (h : Inlines bodies trees blocks) : ∀ node ∈ preorderAll blocks,
    node.name = "element" → ∃ element name, Meets bodies trees element ∧ element.name = "element" ∧
      element.attribute? "name" = some name ∧ node = leaf name := by
  induction h with
  | nil => exact fun _ hnode => absurd hnode not_mem_nil
  | @element tree name rest blocks hname hattribute _ ih =>
    refine forall_mem_cons.mpr
      ⟨fun _ => ⟨tree, name, meets_cons_iff.mpr (.inl rfl), hname, hattribute, rfl⟩, ?_⟩
    intro node hnode helement
    obtain ⟨element, other, hmeets, hfound⟩ := ih node hnode helement
    exact ⟨element, other, meets_cons_iff.mpr (.inr (.inr (.inr hmeets))), hfound⟩
  | ref href hbody _ _ ih ih' =>
    intro node hnode helement
    rw [preorderAll_append, mem_append] at hnode
    rcases hnode with hnode | hnode
    · obtain ⟨element, name, hmeets, hfound⟩ := ih node hnode helement
      exact ⟨element, name,
        meets_cons_iff.mpr (.inr (.inr (.inl ⟨_, _, href, hbody, hmeets⟩))), hfound⟩
    · obtain ⟨element, name, hmeets, hfound⟩ := ih' node hnode helement
      exact ⟨element, name, meets_cons_iff.mpr (.inr (.inr (.inr hmeets))), hfound⟩
  | dropped _ _ ih =>
    intro node hnode helement
    obtain ⟨element, name, hmeets, hfound⟩ := ih node hnode helement
    exact ⟨element, name, meets_cons_iff.mpr (.inr (.inr (.inr hmeets))), hfound⟩
  | @kept tree children rest blocks hleaf _ _ ih ih' =>
    intro node hnode helement
    rw [preorderAll, preorder, mem_append, mem_cons] at hnode
    rcases hnode with (rfl | hnode) | hnode
    · rw [show tree.name = "element" from helement] at hleaf
      exact absurd hleaf (by decide)
    · obtain ⟨element, name, hmeets, hfound⟩ := ih node hnode helement
      exact ⟨element, name, meets_cons_iff.mpr (.inr (.inl ⟨hleaf, hmeets⟩)), hfound⟩
    · obtain ⟨element, name, hmeets, hfound⟩ := ih' node hnode helement
      exact ⟨element, name, meets_cons_iff.mpr (.inr (.inr (.inr hmeets))), hfound⟩

/-- A content model looks at all of the blocks without attributes, if texts hold nothing. -/
theorem Inlines.atomsAreLeaves (h : Inlines bodies trees blocks)
    (htexts : ∀ node ∈ preorderAll blocks, node.name = "text" → node.children = []) :
    AtomsAreLeaves (blocks.filter fun block => !block.mentions "attribute") := by
  intro framed hframed hatom
  obtain ⟨node, hnode, rfl⟩ := NormalForm.exists_of_mem_preorderAll_frameAll _ hframed
  obtain ⟨block, hblock, hnode⟩ := mem_preorderAll.mp hnode
  obtain ⟨hmem, hmentions⟩ := mem_filter.mp hblock
  have hattribute : node.name ≠ "attribute" :=
    name_ne_of_mentions (by simpa using hmentions) node hnode
  have hmem : node ∈ preorderAll blocks := mem_preorderAll.mpr ⟨block, hmem, hnode⟩
  -- Only the leaves of elements and texts are left of what is not looked into.
  have hchildren : node.children = [] := by
    rcases h.forall_preorderAll node hmem with hleaf | ⟨name, rfl⟩
    · have hnames := mt isLeaf_eq_true_iff.mpr (hleaf ▸ Bool.false_ne_true)
      simp only [not_or] at hnames
      have htext : node.name = "text" := by
        simpa [isAtom, hattribute, hnames] using hatom
      exact htexts node hmem htext
    · rfl
  show NormalForm.frameAll node.children = []
  rw [hchildren]
  rfl

end Expansion

namespace Definitions

/-- **The content model of the blocks without attributes** has exactly the tokens of their
leaves. -/
theorem mem_occurrences_divide {bodies : Catalogue (List Tree)} {content blocks : List Tree}
    {model : Model} (hblocks : expandContent bodies content = .ok blocks)
    (htexts : ∀ node ∈ preorderAll blocks, node.name = "text" → node.children = [])
    (hmodel : contentModel (divide blocks).children = .ok model) (token : String) :
    token ∈ model.occurrences ↔
      ∃ block ∈ blocks, block.mentions "attribute" = false ∧ token ∈ leafTokens [block] := by
  have hleaves := (Expansion.inlines_of_expandContent hblocks).atomsAreLeaves htexts
  have hnormal : AtomsAreLeaves (divide blocks).children := by
    rw [AtomsAreLeaves, divide, NormalForm.frameAll_normalise]
    exact hleaves
  rw [occurrences_contentModel hnormal hmodel, divide, leafTokens_normalise, mem_leafTokens]
  simp only [mem_filter, Bool.not_eq_true', and_assoc]

/-- A token of the content model is that of a leaf of the blocks. -/
theorem exists_leaf_of_mem_occurrences {blocks : List Tree} {model : Model}
    (hmodel : contentModel (divide blocks).children = .ok model) {token : String}
    (hmem : token ∈ model.occurrences) :
    ∃ node ∈ preorderAll blocks, leafToken? node = some token := by
  have hseen : token ∈ leafTokens (divide blocks).children := by
    rw [occurrences_contentModel_eq hmodel] at hmem
    exact seenTokensAll_subset _ hmem
  rw [divide, leafTokens_normalise, leafTokens, mem_filterMap] at hseen
  obtain ⟨node, hnode, htoken⟩ := hseen
  exact ⟨node, preorderAll_subset (filter_subset_self _) hnode, htoken⟩

/-- A token of the content model is that of texts, or the name of an element that is met in the
content. -/
theorem exists_meets_of_mem_occurrences {bodies : Catalogue (List Tree)}
    {content blocks : List Tree} {model : Model}
    (hblocks : expandContent bodies content = .ok blocks)
    (hmodel : contentModel (divide blocks).children = .ok model) {token : String}
    (hmem : token ∈ model.occurrences) : token = textToken ∨
      ∃ element, Expansion.Meets bodies content element ∧ element.name = "element" ∧
        element.attribute? "name" = some token := by
  obtain ⟨node, hnode, htoken⟩ := exists_leaf_of_mem_occurrences hmodel hmem
  rw [leafToken?] at htoken
  split at htoken
  · rename_i hname
    obtain ⟨element, name, hmeets, helement, hattribute, rfl⟩ :=
      (Expansion.inlines_of_expandContent hblocks).exists_element node hnode hname
    obtain rfl : name = token := Option.some.inj htoken
    exact .inr ⟨element, hmeets, helement, hattribute⟩
  · split at htoken
    · exact .inl (Option.some.inj htoken).symm
    · cases htoken

end Definitions

end RelaxSchema
