import RelaxSchema.Grammar.ContentModel
import RelaxSchema.Proofs.Grammar.NormalForm

/-!
# What the normal form keeps

The frame of some trees has their nodes other than choices and repetitions, each below the nearest
such node above it.

* `NormalForm.frameAll_normalise`: the normal form of content has the same frame;
* `Tree.leafTokens_normalise`: so no element and no text is lost, added or moved;
* `Tree.occurrences_contentModel`: the tokens of a content model are those of the elements and texts
  that it is read from, provided that these are leaves.

A pass may be looked at for a node whose children are done (`NormalForm.frame_of_step`), as for
patterns. But here nothing is assumed of the trees, so choices and repetitions of nothing occur and
go away.
-/

namespace RelaxSchema

open List RelaxSchema.Tree

namespace NormalForm

/-- Whether a node only says how the nodes below it may be used. -/
def isWrapper (name : String) : Bool := name = "choice" || isRepetition name

mutual

/-- The frame of a tree: a wrapper has that of its children, any other node is kept over theirs. -/
def frame : Tree → List Tree
  | ⟨name, attributes, children⟩ =>
    if isWrapper name then frameAll children else [⟨name, attributes, frameAll children⟩]

/-- The frame of several trees. -/
def frameAll : List Tree → List Tree
  | [] => []
  | tree :: rest => frame tree ++ frameAll rest

end

theorem frame_wrapper {name : String} (h : isWrapper name = true) (attributes : Catalogue String)
    (children : List Tree) : frame ⟨name, attributes, children⟩ = frameAll children := by
  rw [frame, if_pos h]

theorem frame_kept {name : String} (h : isWrapper name = false) (attributes : Catalogue String)
    (children : List Tree) :
    frame ⟨name, attributes, children⟩ = [⟨name, attributes, frameAll children⟩] := by
  rw [frame, h, if_neg Bool.false_ne_true]

theorem frameAll_eq_flatMap (trees : List Tree) : frameAll trees = trees.flatMap frame := by
  induction trees with
  | nil => rfl
  | cons tree rest ih => rw [frameAll, ih, flatMap_cons]

theorem frameAll_singleton (tree : Tree) : frameAll [tree] = frame tree := by
  rw [frameAll, frameAll, append_nil]

/-- Of the children of a node only the frame matters. -/
theorem frame_congr (name : String) (attributes : Catalogue String) {children children' : List Tree}
    (h : frameAll children' = frameAll children) :
    frame ⟨name, attributes, children'⟩ = frame ⟨name, attributes, children⟩ := by
  rw [frame, frame, h]

/-! ### The passes -/

section Step

variable {pass : Tree → Tree}

mutual

/-- A pass keeps frames if it does so for a node whose children are done. -/
theorem frame_of_step (hstep : ∀ tree, frame (pass tree) = frame (withChildren pass tree)) :
    ∀ tree, frame (pass tree) = frame tree
  | ⟨name, attributes, children⟩ => by
    rw [hstep]
    exact frame_congr name attributes (frameAll_of_step hstep children)

theorem frameAll_of_step (hstep : ∀ tree, frame (pass tree) = frame (withChildren pass tree)) :
    ∀ trees, frameAll (trees.map pass) = frameAll trees
  | [] => rfl
  | tree :: rest => by
    rw [map_cons, frameAll, frame_of_step hstep tree, frameAll_of_step hstep rest, ← frameAll]

end

end Step

theorem frameAll_flatMap_spliceChoice (trees : List Tree) :
    frameAll (trees.flatMap spliceChoice) = frameAll trees := by
  have hsplice : ∀ tree, frameAll (spliceChoice tree) = frame tree := by
    rintro ⟨name, attributes, children⟩
    unfold spliceChoice
    split
    · rename_i hname
      obtain rfl : name = "choice" := hname
      exact (frame_wrapper rfl attributes children).symm
    · exact frameAll_singleton _
  rw [frameAll_eq_flatMap, flatMap_assoc, frameAll_eq_flatMap]
  simp only [← frameAll_eq_flatMap, hsplice]

theorem frameAll_flattenChoicesAll (trees : List Tree) :
    frameAll (flattenChoicesAll trees) = frameAll trees := by
  rw [flattenChoicesAll_eq_map]
  refine frameAll_of_step (fun tree => ?_) trees
  obtain ⟨name, attributes, children⟩ := tree
  rw [flattenChoices, flattenChoicesAll_eq_map]
  refine frame_congr name attributes ?_
  split
  · exact frameAll_flatMap_spliceChoice _
  · rfl

theorem frameAll_collapseChoicesAll (trees : List Tree) :
    frameAll (collapseChoicesAll trees) = frameAll trees := by
  rw [collapseChoicesAll_eq_map]
  refine frameAll_of_step (fun tree => ?_) trees
  obtain ⟨name, attributes, children⟩ := tree
  rw [collapseChoices, collapseChoicesAll_eq_map, withChildren]
  unfold onlyChoice
  split
  · rename_i choiceAttributes only heq
    rw [heq, frame_wrapper rfl choiceAttributes, frameAll_singleton]
  · rfl

theorem frameAll_unwrapTextAll (trees : List Tree) :
    frameAll (unwrapTextAll trees) = frameAll trees := by
  rw [unwrapTextAll_eq_map]
  refine frameAll_of_step (fun tree => ?_) trees
  obtain ⟨name, attributes, children⟩ := tree
  rw [withChildren]
  unfold unwrapText
  split
  · rename_i textAttributes textChildren hskippable
    -- The wrapper goes away, and in its frame it had been left out before.
    have hwrapper : isWrapper name = true := by
      rw [isWrapper, isRepetition, hskippable, Bool.true_or, Bool.or_true]
    have htext : unwrapText ⟨"text", textAttributes, textChildren⟩ =
        ⟨"text", textAttributes, unwrapTextAll textChildren⟩ :=
      @unwrapText_kept ⟨"text", textAttributes, textChildren⟩ fun htext =>
        absurd htext Bool.false_ne_true
    rw [frame_wrapper hwrapper attributes, map_singleton, htext, frameAll_singleton]
  · rw [unwrapTextAll_eq_map]

/-- A repetition of nothing has no frame. -/
theorem frameAll_dropEmpty_eq_map (trees : List Tree) :
    frameAll (dropEmpty trees) = frameAll (trees.map dropEmptyBelow) := by
  induction trees with
  | nil => rfl
  | cons tree rest ih =>
    rw [dropEmpty, map_cons, frameAll, ← ih]
    split
    · rename_i hempty
      generalize dropEmptyBelow tree = dropped at hempty ⊢
      obtain ⟨name, attributes, children⟩ := dropped
      rw [Bool.and_eq_true, List.isEmpty_iff] at hempty
      obtain ⟨hrepetition, rfl⟩ := hempty
      have hwrapper : isWrapper name = true := by rw [isWrapper, hrepetition, Bool.or_true]
      rw [frame_wrapper hwrapper]
      rfl
    · rfl

theorem frameAll_dropEmpty (trees : List Tree) : frameAll (dropEmpty trees) = frameAll trees := by
  rw [frameAll_dropEmpty_eq_map]
  refine frameAll_of_step (fun tree => ?_) trees
  obtain ⟨name, attributes, children⟩ := tree
  rw [dropEmptyBelow]
  exact frame_congr name attributes (frameAll_dropEmpty_eq_map children)

/-- **The normal form keeps the frame** of any content. -/
theorem frameAll_normalise (trees : List Tree) : frameAll (normalise trees) = frameAll trees := by
  rw [normalise, frameAll_dropEmpty, frameAll_unwrapTextAll, frameAll_collapseChoicesAll,
    frameAll_flattenChoicesAll]

/-! ### The nodes of a frame -/

mutual

/-- A node of a frame is a node of the tree with its children framed. -/
theorem exists_of_mem_preorderAll_frame : ∀ (tree : Tree) {node : Tree},
    node ∈ preorderAll (frame tree) → ∃ source ∈ tree.preorder,
      node = ⟨source.name, source.attributes, frameAll source.children⟩
  | ⟨name, attributes, children⟩, node, hnode => by
    have hbelow : node ∈ preorderAll (frameAll children) →
      ∃ source ∈ preorder ⟨name, attributes, children⟩,
        node = ⟨source.name, source.attributes, frameAll source.children⟩ := by
      intro hmem
      obtain ⟨source, hsource, rfl⟩ := exists_of_mem_preorderAll_frameAll children hmem
      exact ⟨source, mem_cons_of_mem _ hsource, rfl⟩
    rw [frame] at hnode
    split at hnode
    · exact hbelow hnode
    · rw [mem_preorderAll_singleton, preorder_eq, mem_cons] at hnode
      rcases hnode with rfl | hnode
      · exact ⟨_, mem_cons_self, rfl⟩
      · exact hbelow hnode

theorem exists_of_mem_preorderAll_frameAll : ∀ (trees : List Tree) {node : Tree},
    node ∈ preorderAll (frameAll trees) → ∃ source ∈ preorderAll trees,
      node = ⟨source.name, source.attributes, frameAll source.children⟩
  | [], _, hnode => absurd hnode not_mem_nil
  | tree :: rest, node, hnode => by
    rw [frameAll, preorderAll_append, mem_append] at hnode
    rw [preorderAll]
    rcases hnode with hnode | hnode
    · obtain ⟨source, hsource, rfl⟩ := exists_of_mem_preorderAll_frame tree hnode
      exact ⟨source, mem_append_left _ hsource, rfl⟩
    · obtain ⟨source, hsource, rfl⟩ := exists_of_mem_preorderAll_frameAll rest hnode
      exact ⟨source, mem_append_right _ hsource, rfl⟩

end

/-- What is below a node of a frame is below it in the frame as well. -/
theorem mem_preorderAll_frame_of_children {tree node : Tree}
    (h : node ∈ preorderAll (frameAll tree.children)) : node ∈ preorderAll (frame tree) := by
  obtain ⟨name, attributes, children⟩ := tree
  cases hwrapper : isWrapper name with
  | true => rwa [frame_wrapper hwrapper]
  | false =>
    rw [frame_kept hwrapper, mem_preorderAll_singleton]
    exact mem_preorder_of_below h

end NormalForm

/-! ### Leaves -/

namespace Tree

open NormalForm

/-- The token that a leaf of expanded content stands for: the name of an element, or character
data. -/
def leafToken? (tree : Tree) : Option String :=
  if tree.name = "element" then tree.attribute? "name"
  else if tree.name = "text" then some textToken else none

/-- The tokens of the elements and texts among some nodes and below them, in document order. -/
def leafTokens (trees : List Tree) : List String := (preorderAll trees).filterMap leafToken?

theorem leafTokens_append (before after : List Tree) :
    leafTokens (before ++ after) = leafTokens before ++ leafTokens after := by
  rw [leafTokens, preorderAll_append, filterMap_append]
  rfl

theorem leafTokens_cons (tree : Tree) (rest : List Tree) :
    leafTokens (tree :: rest) = leafTokens [tree] ++ leafTokens rest :=
  leafTokens_append [tree] rest

theorem leafTokens_singleton (tree : Tree) :
    leafTokens [tree] = (leafToken? tree).toList ++ leafTokens tree.children := by
  rw [leafTokens, preorderAll, preorderAll, append_nil, preorder_eq, filterMap_cons, descendants]
  cases leafToken? tree <;> rfl

theorem mem_leafTokens {trees : List Tree} {token : String} :
    token ∈ leafTokens trees ↔ ∃ tree ∈ trees, token ∈ leafTokens [tree] := by
  induction trees with
  | nil => simp [leafTokens, preorderAll]
  | cons tree rest ih => rw [leafTokens_cons, mem_append, ih, exists_mem_cons_iff]

theorem leafToken?_of_isWrapper {name : String} (h : isWrapper name = true)
    (attributes : Catalogue String) (children : List Tree) :
    leafToken? ⟨name, attributes, children⟩ = none := by
  have helement : name ≠ "element" := by
    rintro rfl
    exact absurd h (by decide)
  have htext : name ≠ "text" := by
    rintro rfl
    exact absurd h (by decide)
  exact (if_neg helement).trans (if_neg htext)

mutual

theorem leafTokens_frame : ∀ tree : Tree, leafTokens (frame tree) = leafTokens [tree]
  | ⟨name, attributes, children⟩ => by
    have hchildren := leafTokens_frameAll children
    rw [leafTokens_singleton]
    cases hwrapper : isWrapper name with
    | true =>
      rw [frame_wrapper hwrapper, hchildren, leafToken?_of_isWrapper hwrapper]
      rfl
    | false =>
      rw [frame_kept hwrapper, leafTokens_singleton, hchildren]
      rfl

theorem leafTokens_frameAll : ∀ trees : List Tree, leafTokens (frameAll trees) = leafTokens trees
  | [] => rfl
  | tree :: rest => by
    rw [frameAll, leafTokens_append, leafTokens_frame tree, leafTokens_frameAll rest,
      ← leafTokens_cons]

end

/-- **The normal form keeps the leaves** and their order. -/
theorem leafTokens_normalise (trees : List Tree) :
    leafTokens (normalise trees) = leafTokens trees := by
  rw [← leafTokens_frameAll, frameAll_normalise, leafTokens_frameAll]

/-! ### The tokens of a content model -/

/-- Whether a content model looks at nothing below a node of that name. -/
def isAtom (name : String) : Bool :=
  name = "element" || name = "text" || name = "attribute" || name = "empty" || name = "notAllowed"

mutual

/-- The tokens of the leaves that are seen from a block, where nothing below an atom is looked
at. -/
def seenTokens : Tree → List String
  | ⟨name, attributes, children⟩ =>
    if isAtom name = true then (leafToken? ⟨name, attributes, children⟩).toList
      else seenTokensAll children

/-- The tokens of the leaves that are seen from several blocks. -/
def seenTokensAll : List Tree → List String
  | [] => []
  | tree :: rest => seenTokens tree ++ seenTokensAll rest

end

theorem leafToken?_of_not_isAtom {tree : Tree} (h : ¬ isAtom tree.name = true) :
    leafToken? tree = none := by
  simp only [isAtom, Bool.or_eq_true, decide_eq_true_iff, not_or] at h
  rw [leafToken?, if_neg h.1.1.1.1, if_neg h.1.1.1.2]

/-- Trees with nothing to look at below a node that is not looked into. -/
def AtomsAreLeaves (trees : List Tree) : Prop :=
  ∀ node ∈ preorderAll (frameAll trees), isAtom node.name = true → node.children = []

section Models

variable {trees : List Tree} {tree : Tree}

theorem AtomsAreLeaves.head {rest : List Tree} (h : AtomsAreLeaves (tree :: rest)) :
    AtomsAreLeaves [tree] := by
  intro node hnode
  rw [frameAll_singleton] at hnode
  refine h node ?_
  rw [frameAll, preorderAll_append]
  exact mem_append_left _ hnode

theorem AtomsAreLeaves.tail {rest : List Tree} (h : AtomsAreLeaves (tree :: rest)) :
    AtomsAreLeaves rest := by
  intro node hnode
  refine h node ?_
  rw [frameAll, preorderAll_append]
  exact mem_append_right _ hnode

theorem AtomsAreLeaves.children (h : AtomsAreLeaves [tree]) : AtomsAreLeaves tree.children := by
  intro node hnode
  refine h node ?_
  rw [frameAll_singleton]
  exact mem_preorderAll_frame_of_children hnode

/-- Nothing is left out where nothing is looked at. -/
theorem AtomsAreLeaves.leafTokens_children (h : AtomsAreLeaves [tree])
    (hatom : isAtom tree.name = true) : leafTokens tree.children = [] := by
  obtain ⟨name, attributes, children⟩ := tree
  have hwrapper : isWrapper name = false := by
    simp only [isAtom, Bool.or_eq_true, decide_eq_true_iff] at hatom
    rcases hatom with (((rfl | rfl) | rfl) | rfl) | rfl <;> decide
  -- The node stands in the frame, with what is left of its children.
  have hframe : frameAll children = [] := by
    refine h ⟨name, attributes, frameAll children⟩ ?_ hatom
    rw [frameAll_singleton, frame_kept hwrapper, mem_preorderAll_singleton]
    exact self_mem_preorder _
  rw [← leafTokens_frameAll, hframe]
  rfl

theorem AtomsAreLeaves.leafTokens_eq (h : AtomsAreLeaves [tree]) (hatom : isAtom tree.name = true) :
    leafTokens [tree] = (leafToken? tree).toList := by
  rw [leafTokens_singleton, h.leafTokens_children hatom, append_nil]

theorem occurrencesAll_append (before after : List Model) : Model.occurrencesAll (before ++ after) =
    Model.occurrencesAll before ++ Model.occurrencesAll after := by
  induction before with
  | nil => rfl
  | cons model rest ih => rw [cons_append, Model.occurrencesAll, ih,
      Model.occurrencesAll, append_assoc]

theorem occurrences_sideBySide (models : List Model) :
    (sideBySide models).occurrences = Model.occurrencesAll models := by
  unfold sideBySide
  split
  · rw [Model.occurrencesAll, Model.occurrencesAll, append_nil]
  · rw [Model.occurrences]

/-- An operator on the blocks of the children has the tokens of these. -/
theorem occurrencesAll_of_operator {children : List Tree} {operator : List Model → Model}
    (hoperator : ∀ blocks, (operator blocks).occurrences = Model.occurrencesAll blocks)
    (hchildren : ∀ blocks, blockModels children = .ok blocks →
      Model.occurrencesAll blocks = seenTokensAll children) {models : List Model}
    (hmodels : (fun blocks => [operator blocks]) <$> blockModels children = .ok models) :
    Model.occurrencesAll models = seenTokensAll children := by
  obtain ⟨blocks, hblocks, rfl⟩ := map_eq_ok_iff.mp hmodels
  rw [Model.occurrencesAll, Model.occurrencesAll, append_nil, hoperator, hchildren blocks hblocks]

mutual

/-- The model of a block has the tokens that are seen from it. -/
theorem occurrences_blockModel : ∀ (tree : Tree) {models : List Model},
    blockModel tree = .ok models → Model.occurrencesAll models = seenTokens tree
  | ⟨name, attributes, children⟩, models, hmodels => by
    have hchildren : ∀ blocks, blockModels children = .ok blocks →
        Model.occurrencesAll blocks = seenTokensAll children :=
      fun blocks hblocks => occurrences_blockModels children hblocks
    unfold blockModel at hmodels
    split at hmodels
    -- Attributes, and what is empty or not allowed.
    · obtain rfl := Except.ok.inj hmodels
      rfl
    · obtain rfl := Except.ok.inj hmodels
      rfl
    · obtain rfl := Except.ok.inj hmodels
      rfl
    -- Elements and texts.
    · split at hmodels
      · cases hmodels
      · rename_i element helement
        obtain rfl := Except.ok.inj hmodels
        have htoken : leafToken? ⟨"element", attributes, children⟩ = some element := helement
        rw [seenTokens, if_pos (by decide), htoken]
        rfl
    · obtain rfl := Except.ok.inj hmodels
      rfl
    -- Operators on all blocks, and those on the blocks side by side.
    · exact occurrencesAll_of_operator (fun _ => by rw [Model.occurrences]) hchildren hmodels
    · exact occurrencesAll_of_operator (fun _ => by rw [Model.occurrences]) hchildren hmodels
    · exact occurrencesAll_of_operator (fun _ => by rw [Model.occurrences]) hchildren hmodels
    · exact occurrencesAll_of_operator (fun _ => by rw [Model.occurrences, occurrences_sideBySide])
        hchildren hmodels
    · exact occurrencesAll_of_operator (fun _ => by rw [Model.occurrences, occurrences_sideBySide])
        hchildren hmodels
    · exact occurrencesAll_of_operator (fun _ => by rw [Model.occurrences, occurrences_sideBySide])
        hchildren hmodels
    -- Any other node is not supported.
    · cases hmodels

theorem occurrences_blockModels : ∀ (trees : List Tree) {models : List Model},
    blockModels trees = .ok models → Model.occurrencesAll models = seenTokensAll trees
  | [], models, hmodels => by
    obtain rfl := Except.ok.inj hmodels
    rfl
  | tree :: rest, models, hmodels => by
    obtain ⟨first, hfirst, hmodels⟩ := bind_eq_ok_iff.mp hmodels
    obtain ⟨others, hothers, hmodels⟩ := bind_eq_ok_iff.mp hmodels
    obtain rfl := Except.ok.inj hmodels
    rw [occurrencesAll_append, occurrences_blockModel tree hfirst,
      occurrences_blockModels rest hothers, seenTokensAll]

end

theorem occurrences_contentModel_eq {model : Model} (h : contentModel trees = .ok model) :
    model.occurrences = seenTokensAll trees := by
  obtain ⟨models, hmodels, rfl⟩ := map_eq_ok_iff.mp h
  rw [occurrences_sideBySide, occurrences_blockModels trees hmodels]

mutual

theorem seenTokens_subset : ∀ tree : Tree, seenTokens tree ⊆ leafTokens [tree]
  | ⟨name, attributes, children⟩ => by
    rw [seenTokens, leafTokens_singleton]
    split
    · exact subset_append_left _ _
    · exact Subset.trans (seenTokensAll_subset children) (subset_append_right _ _)

/-- No token is seen that is not one of a leaf. -/
theorem seenTokensAll_subset : ∀ trees : List Tree, seenTokensAll trees ⊆ leafTokens trees
  | [] => nil_subset _
  | tree :: rest => by
    rw [seenTokensAll, leafTokens_cons, append_subset]
    exact ⟨Subset.trans (seenTokens_subset tree) (subset_append_left _ _),
      Subset.trans (seenTokensAll_subset rest) (subset_append_right _ _)⟩

end

mutual

theorem seenTokens_eq : ∀ {tree : Tree}, AtomsAreLeaves [tree] → seenTokens tree = leafTokens [tree]
  | ⟨name, attributes, children⟩, h => by
    rw [seenTokens]
    split
    · rename_i hatom
      exact (h.leafTokens_eq hatom).symm
    · rename_i hatom
      rw [seenTokensAll_eq h.children, leafTokens_singleton, leafToken?_of_not_isAtom hatom]
      rfl

/-- The tokens of all leaves are seen, if nothing is below a node that is not looked into. -/
theorem seenTokensAll_eq : ∀ {trees : List Tree}, AtomsAreLeaves trees →
    seenTokensAll trees = leafTokens trees
  | [], _ => rfl
  | tree :: rest, h => by
    rw [seenTokensAll, seenTokens_eq h.head, seenTokensAll_eq h.tail, ← leafTokens_cons]

end

/-- **The tokens of a content model are those of the leaves**, in their order. -/
theorem occurrences_contentModel {model : Model} (hleaves : AtomsAreLeaves trees)
    (h : contentModel trees = .ok model) : model.occurrences = leafTokens trees :=
  (occurrences_contentModel_eq h).trans (seenTokensAll_eq hleaves)

end Models

end Tree

end RelaxSchema
