import RelaxSchema.Proofs.Grammar.NormalNodes

/-!
# Content in normal form

How far one run of the four passes gets.

* `NormalForm.normalise_eq_self_iff`: the passes change nothing exactly if there is nothing to do
  for any of them, and otherwise there are fewer nodes afterwards;
* `NormalForm.isNormal_normalise_iff`: afterwards no choice is in a choice and no repetition is
  empty. A choice of one and an optional text are left exactly if the last two passes make one
  (`IsStable`), which the first two do not see.

Each pass works on the children of a node before the node itself, or on both at once. So it is
looked at for one node (`Settles.node`), and what it leaves as it is has nothing for it to do.
-/

namespace RelaxSchema.NormalForm

open List RelaxSchema.Tree

/-! ### Nodes that are left as they are -/

/-- No choice is a child of a choice. -/
def HoldsNoChoice (node : Tree) : Prop :=
  node.name = "choice" → ∀ child ∈ node.children, child.name ≠ "choice"

/-- No choice has exactly one child. -/
def IsNoChoiceOfOne (node : Tree) : Prop := node.name = "choice" → node.children.length ≠ 1

/-- A text is not the only child of what allows it to be absent. -/
def HoldsNoBareText (node : Tree) : Prop :=
  isSkippable node.name = true → node.children.map Tree.name ≠ ["text"]

/-- No repetition is empty. -/
def IsFilled (node : Tree) : Prop := isRepetition node.name = true → node.children ≠ []

/-- A node with nothing to do for any pass. -/
structure IsNormalNode (node : Tree) : Prop where
  /-- It is no choice with a choice in it. -/
  holdsNoChoice : HoldsNoChoice node
  /-- It is no choice of one. -/
  isNoChoiceOfOne : IsNoChoiceOfOne node
  /-- It is no optional text. -/
  holdsNoBareText : HoldsNoBareText node
  /-- It is no repetition of nothing. -/
  isFilled : IsFilled node

/-- Content in normal form. -/
def IsNormal (trees : List Tree) : Prop := ∀ node ∈ preorderAll trees, IsNormalNode node

theorem forall_preorderAll_cons {P : Tree → Prop} {tree : Tree} {rest : List Tree} :
    (∀ node ∈ preorderAll (tree :: rest), P node) ↔
      (P tree ∧ ∀ node ∈ preorderAll tree.children, P node) ∧
        ∀ node ∈ preorderAll rest, P node := by
  rw [preorderAll, forall_mem_append, preorder_eq, forall_mem_cons, descendants]

theorem forall_preorderAll_singleton {P : Tree → Prop} {tree : Tree} :
    (∀ node ∈ preorderAll [tree], P node) ↔
      P tree ∧ ∀ node ∈ preorderAll tree.children, P node := by
  rw [forall_preorderAll_cons]
  exact and_iff_left fun _ hnode => absurd hnode not_mem_nil

/-! ### Passes that take nodes away -/

/-- The number of nodes of some trees. -/
def nodeCount (trees : List Tree) : Nat := (preorderAll trees).length

theorem nodeCount_append (before after : List Tree) :
    nodeCount (before ++ after) = nodeCount before + nodeCount after := by
  rw [nodeCount, preorderAll_append, length_append]
  rfl

theorem nodeCount_cons (tree : Tree) (rest : List Tree) :
    nodeCount (tree :: rest) = nodeCount [tree] + nodeCount rest :=
  nodeCount_append [tree] rest

theorem nodeCount_singleton (tree : Tree) : nodeCount [tree] = nodeCount tree.children + 1 := by
  rw [nodeCount, preorderAll, preorderAll, append_nil, preorder_eq, length_cons]
  rfl

/-- `Settles P trees trees'` says that a pass leaves the trees as they are if `P` holds of all
nodes, and takes nodes away otherwise. -/
def Settles (P : Tree → Prop) (trees trees' : List Tree) : Prop :=
  (trees' = trees ∧ ∀ node ∈ preorderAll trees, P node) ∨
    ((∃ node ∈ preorderAll trees, ¬ P node) ∧ nodeCount trees' < nodeCount trees)

section Settles

variable {P Q : Tree → Prop} {trees trees' trees'' rest rest' : List Tree}

theorem Settles.nodeCount_le (h : Settles P trees trees') : nodeCount trees' ≤ nodeCount trees := by
  rcases h with ⟨rfl, -⟩ | ⟨-, hfewer⟩
  · exact Nat.le_refl _
  · exact Nat.le_of_lt hfewer

/-- The trees stay as they are exactly if the pass has nothing to do. -/
theorem Settles.eq_iff (h : Settles P trees trees') :
    trees' = trees ↔ ∀ node ∈ preorderAll trees, P node := by
  rcases h with ⟨hsame, hall⟩ | ⟨⟨node, hnode, hbad⟩, hfewer⟩
  · exact iff_of_true hsame hall
  · refine iff_of_false ?_ fun hall => hbad (hall node hnode)
    rintro rfl
    exact absurd hfewer (Nat.lt_irrefl _)

theorem Settles.nil : Settles P [] [] := Or.inl ⟨rfl, fun _ hnode => absurd hnode not_mem_nil⟩

theorem Settles.append (h : Settles P trees trees') (h' : Settles P rest rest') :
    Settles P (trees ++ rest) (trees' ++ rest') := by
  have hle := h.nodeCount_le
  have hle' := h'.nodeCount_le
  rw [Settles, preorderAll_append, forall_mem_append, nodeCount_append, nodeCount_append]
  rcases h with ⟨rfl, hall⟩ | ⟨⟨node, hnode, hbad⟩, hfewer⟩
  · rcases h' with ⟨rfl, hall'⟩ | ⟨⟨node, hnode, hbad⟩, hfewer⟩
    · exact Or.inl ⟨rfl, hall, hall'⟩
    · exact Or.inr ⟨⟨node, mem_append_right _ hnode, hbad⟩, by omega⟩
  · exact Or.inr ⟨⟨node, mem_append_left _ hnode, hbad⟩, by omega⟩

/-- One pass after the other. -/
theorem Settles.trans (h : Settles P trees trees') (h' : Settles Q trees' trees'') :
    Settles (fun node => P node ∧ Q node) trees trees'' := by
  have hle' := h'.nodeCount_le
  rcases h with ⟨rfl, hall⟩ | ⟨⟨node, hnode, hbad⟩, hfewer⟩
  · rcases h' with ⟨rfl, hall'⟩ | ⟨⟨node, hnode, hbad⟩, hfewer⟩
    · exact Or.inl ⟨rfl, fun node hnode => ⟨hall node hnode, hall' node hnode⟩⟩
    · exact Or.inr ⟨⟨node, hnode, fun hboth => hbad hboth.2⟩, hfewer⟩
  · exact Or.inr ⟨⟨node, hnode, fun hboth => hbad hboth.1⟩, by omega⟩

/-- A pass over a node whose children are done: it adds no node, and if the children are what they
were, it leaves the node or takes nodes away. -/
theorem Settles.node {name : String} {attributes : Catalogue String}
    {children children' made : List Tree} (hchildren : Settles P children children')
    (hle : nodeCount made ≤ nodeCount children' + 1)
    (hstep : children' = children →
      (made = [⟨name, attributes, children⟩] ∧ P ⟨name, attributes, children⟩) ∨
      (¬ P ⟨name, attributes, children⟩ ∧ nodeCount made < nodeCount children + 1)) :
    Settles P [⟨name, attributes, children⟩] made := by
  rw [Settles, nodeCount_singleton]
  rcases hchildren with ⟨rfl, hall⟩ | ⟨⟨node, hnode, hbad⟩, hfewer⟩
  · rcases hstep rfl with ⟨rfl, hkept⟩ | ⟨hbad, hfewer⟩
    · exact Or.inl ⟨rfl, forall_preorderAll_singleton.mpr ⟨hkept, hall⟩⟩
    · exact Or.inr ⟨⟨_, mem_preorderAll_singleton.mpr (self_mem_preorder _), hbad⟩, hfewer⟩
  · refine Or.inr ⟨⟨node, mem_preorderAll_singleton.mpr (mem_preorder_of_below hnode), hbad⟩, ?_⟩
    exact Nat.lt_of_le_of_lt hle (Nat.add_lt_add_right hfewer 1)

end Settles

/-! ### Each pass -/

/-- Splicing the choices among some nodes takes these away. -/
theorem nodeCount_flatMap_spliceChoice (trees : List Tree) :
    ((trees.flatMap spliceChoice = trees ∧ ∀ tree ∈ trees, tree.name ≠ "choice") ∨
      ((∃ tree ∈ trees, tree.name = "choice") ∧
        nodeCount (trees.flatMap spliceChoice) < nodeCount trees)) := by
  induction trees with
  | nil => exact Or.inl ⟨rfl, fun _ htree => absurd htree not_mem_nil⟩
  | cons tree rest ih =>
    rw [flatMap_cons, nodeCount_append, nodeCount_cons]
    have hle : nodeCount (rest.flatMap spliceChoice) ≤ nodeCount rest := by
      rcases ih with ⟨hsame, -⟩ | ⟨-, hfewer⟩
      · rw [hsame]
      · exact Nat.le_of_lt hfewer
    by_cases hname : tree.name = "choice"
    · have hsplice : spliceChoice tree = tree.children := if_pos hname
      rw [hsplice, nodeCount_singleton]
      exact Or.inr ⟨⟨tree, mem_cons_self, hname⟩, by omega⟩
    · have hsplice : spliceChoice tree = [tree] := if_neg hname
      rw [hsplice, singleton_append]
      rcases ih with ⟨hsame, hall⟩ | ⟨⟨choice, hchoice, hchoiceName⟩, hfewer⟩
      · exact Or.inl ⟨by rw [hsame], forall_mem_cons.mpr ⟨hname, hall⟩⟩
      · exact Or.inr ⟨⟨choice, mem_cons_of_mem _ hchoice, hchoiceName⟩, by omega⟩

mutual

theorem settles_flattenChoices : ∀ tree : Tree, Settles HoldsNoChoice [tree] [flattenChoices tree]
  | ⟨name, attributes, children⟩ => by
    have hchildren := settles_flattenChoicesAll children
    rw [flattenChoices]
    by_cases hname : name = "choice"
    · have hspliced := nodeCount_flatMap_spliceChoice (flattenChoicesAll children)
      simp only [if_pos hname]
      refine hchildren.node ?_ fun hsame => ?_
      · rw [nodeCount_singleton]
        rcases hspliced with ⟨hspliced, -⟩ | ⟨-, hfewer⟩
        · rw [hspliced]
        · exact Nat.succ_le_succ (Nat.le_of_lt hfewer)
      · rw [hsame] at hspliced ⊢
        rcases hspliced with ⟨hspliced, hall⟩ | ⟨⟨choice, hchoice, hchoiceName⟩, hfewer⟩
        · exact Or.inl ⟨by rw [hspliced], fun _ => hall⟩
        · refine Or.inr ⟨fun hnone => hnone hname choice hchoice hchoiceName, ?_⟩
          rw [nodeCount_singleton]
          exact Nat.succ_lt_succ hfewer
    · simp only [if_neg hname]
      refine hchildren.node (nodeCount_singleton _).le fun hsame => ?_
      exact Or.inl ⟨by rw [hsame], fun hchoice => absurd hchoice hname⟩

theorem settles_flattenChoicesAll :
    ∀ trees : List Tree, Settles HoldsNoChoice trees (flattenChoicesAll trees)
  | [] => .nil
  | tree :: rest => (settles_flattenChoices tree).append (settles_flattenChoicesAll rest)

end

theorem onlyChoice_cases (tree : Tree) : (onlyChoice tree = tree ∧ IsNoChoiceOfOne tree) ∨
    (¬ IsNoChoiceOfOne tree ∧ nodeCount [onlyChoice tree] < nodeCount [tree]) := by
  unfold onlyChoice
  split
  · rename_i attributes only
    refine Or.inr ⟨fun hnone => hnone rfl rfl, ?_⟩
    rw [nodeCount_singleton ⟨"choice", attributes, [only]⟩]
    exact Nat.lt_succ_self _
  · rename_i hother
    refine Or.inl ⟨rfl, fun hname hlength => ?_⟩
    obtain ⟨_, attributes, children⟩ := tree
    obtain ⟨only, rfl⟩ := length_eq_one_iff.mp hlength
    obtain rfl := hname
    exact hother attributes only rfl

mutual

theorem settles_collapseChoices :
    ∀ tree : Tree, Settles IsNoChoiceOfOne [tree] [collapseChoices tree]
  | ⟨name, attributes, children⟩ => by
    have hcases := onlyChoice_cases ⟨name, attributes, collapseChoicesAll children⟩
    rw [collapseChoices]
    refine (settles_collapseChoicesAll children).node ?_ fun hsame => ?_
    · rw [← nodeCount_singleton ⟨name, attributes, collapseChoicesAll children⟩]
      rcases hcases with ⟨hkept, -⟩ | ⟨-, hfewer⟩
      · rw [hkept]
      · exact Nat.le_of_lt hfewer
    · rw [hsame] at hcases ⊢
      rcases hcases with ⟨hkept, hmore⟩ | ⟨hone, hfewer⟩
      · exact Or.inl ⟨by rw [hkept], hmore⟩
      · rw [nodeCount_singleton ⟨name, attributes, children⟩] at hfewer
        exact Or.inr ⟨hone, hfewer⟩

theorem settles_collapseChoicesAll : ∀ trees : List Tree,
    Settles IsNoChoiceOfOne trees (collapseChoicesAll trees)
  | [] => .nil
  | tree :: rest => (settles_collapseChoices tree).append (settles_collapseChoicesAll rest)

end

mutual

theorem settles_unwrapText : ∀ tree : Tree, Settles HoldsNoBareText [tree] [unwrapText tree]
  | ⟨name, attributes, children⟩ => by
    have hchildren := settles_unwrapTextAll children
    by_cases hbare : isSkippable name = true ∧ children.map Tree.name = ["text"]
    · obtain ⟨hskippable, hnames⟩ := hbare
      obtain ⟨text, rfl, hname⟩ := map_eq_singleton_iff.mp hnames
      -- The wrapper goes away, and the text has no more nodes than before.
      have hfewer : nodeCount [unwrapText ⟨name, attributes, [text]⟩] < nodeCount [text] + 1 := by
        have htext := hchildren.nodeCount_le
        rw [unwrapTextAll, unwrapTextAll,
          unwrapText_kept (by simp [hname, isSkippable]), hname] at htext
        rw [unwrapText_text hskippable attributes hname]
        exact Nat.lt_succ_of_le htext
      refine Or.inr ⟨⟨_, mem_preorderAll_singleton.mpr (self_mem_preorder _), ?_⟩, ?_⟩
      · exact fun hnone => hnone hskippable hnames
      · rw [nodeCount_singleton ⟨name, attributes, [text]⟩]
        exact hfewer
    · have hkept : HoldsNoBareText ⟨name, attributes, children⟩ := fun hskippable hnames =>
        hbare ⟨hskippable, hnames⟩
      rw [unwrapText_kept hkept]
      refine hchildren.node (nodeCount_singleton _).le fun hsame => ?_
      exact Or.inl ⟨by rw [hsame], hkept⟩

theorem settles_unwrapTextAll :
    ∀ trees : List Tree, Settles HoldsNoBareText trees (unwrapTextAll trees)
  | [] => .nil
  | tree :: rest => (settles_unwrapText tree).append (settles_unwrapTextAll rest)

end

theorem settles_dropEmpty : ∀ trees : List Tree, Settles IsFilled trees (dropEmpty trees)
  | [] => by
    rw [dropEmpty]
    exact .nil
  | ⟨name, attributes, children⟩ :: rest => by
    rw [dropEmpty_cons]
    refine @Settles.append _ [⟨name, attributes, children⟩] _ _ _ ?_ (settles_dropEmpty rest)
    rw [dropEmpty_singleton]
    refine (settles_dropEmpty children).node ?_ fun hsame => ?_
    · split
      · exact Nat.zero_le _
      · exact (nodeCount_singleton _).le
    · simp only [hsame, Bool.and_eq_true, List.isEmpty_iff]
      split
      · rename_i hempty
        exact Or.inr ⟨fun hfilled => hfilled hempty.1 hempty.2, Nat.succ_pos _⟩
      · rename_i hfilled
        exact Or.inl ⟨rfl, fun hrepetition hempty => hfilled ⟨hrepetition, hempty⟩⟩

/-! ### All passes -/

/-- **The normal form is the content itself, or has fewer nodes.** -/
theorem settles_normalise (trees : List Tree) : Settles IsNormalNode trees (normalise trees) := by
  have h := (((settles_flattenChoicesAll trees).trans (settles_collapseChoicesAll _)).trans
    (settles_unwrapTextAll _)).trans (settles_dropEmpty _)
  have hsame : (fun node => ((HoldsNoChoice node ∧ IsNoChoiceOfOne node) ∧ HoldsNoBareText node) ∧
      IsFilled node) = IsNormalNode := by
    funext node
    refine propext ⟨fun h => ⟨h.1.1.1, h.1.1.2, h.1.2, h.2⟩, fun h => ⟨⟨⟨h.1, h.2⟩, h.3⟩, h.4⟩⟩
  rwa [hsame] at h

/-- **The passes change nothing exactly if there is nothing to do.** -/
theorem normalise_eq_self_iff {trees : List Tree} : normalise trees = trees ↔ IsNormal trees :=
  (settles_normalise trees).eq_iff

/-! ### What the normal form is -/

/-- What is left of a node that is no choice is no choice. -/
theorem name_ne_of_mem_normalise {tree node : Tree} (h : tree.name ≠ "choice")
    (hnode : node ∈ normalise [tree]) : node.name ≠ "choice" := by
  by_cases hrepetition : isRepetition tree.name = true
  · by_cases hbare : isSkippable tree.name = true ∧ isBareText tree.children = true
    · obtain ⟨text, htext, hname⟩ := normalise_text hbare.1 hbare.2
      rw [htext, mem_singleton] at hnode
      simp [hnode, hname]
    · rw [normalise_repetition hrepetition fun hskippable =>
        Bool.eq_false_iff.mpr fun htext => hbare ⟨hskippable, htext⟩] at hnode
      split at hnode
      · exact absurd hnode not_mem_nil
      · rwa [mem_singleton.mp hnode]
  · rw [normalise_kept h (Bool.eq_false_iff.mpr hrepetition), mem_singleton] at hnode
    rwa [hnode]

/-- What holds of all nodes that are left of each tree holds of all nodes of the normal form. -/
theorem forall_preorderAll_normalise {P : Tree → Prop} {trees : List Tree}
    (h : ∀ tree ∈ trees, ∀ node ∈ preorderAll (normalise [tree]), P node) :
    ∀ node ∈ preorderAll (normalise trees), P node := by
  intro node hnode
  rw [normalise_eq_flatMap, preorderAll_eq_flatMap, flatMap_assoc] at hnode
  obtain ⟨tree, htree, hnode⟩ := mem_flatMap.mp hnode
  exact h tree htree node (preorderAll_eq_flatMap _ ▸ hnode)

theorem holdsNoChoice_and_isFilled (tree : Tree) :
    ∀ node ∈ preorderAll (normalise [tree]), HoldsNoChoice node ∧ IsFilled node := by
  have hall {trees : List Tree} :=
    @forall_preorderAll_normalise (fun node => HoldsNoChoice node ∧ IsFilled node) trees
  refine branches_induction (P := fun tree => ∀ node ∈ preorderAll (normalise [tree]),
    HoldsNoChoice node ∧ IsFilled node) (fun tree hchoice ih => ?_) (fun tree hchoice ih => ?_) tree
  · by_cases hrepetition : isRepetition tree.name = true
    · by_cases hbare : isSkippable tree.name = true ∧ isBareText tree.children = true
      · rw [normalise_unwrapped hbare.1 hbare.2]
        exact hall ih
      · rw [normalise_repetition hrepetition fun hskippable =>
          Bool.eq_false_iff.mpr fun htext => hbare ⟨hskippable, htext⟩]
        split
        · exact fun node hnode => absurd hnode not_mem_nil
        · rename_i hfilled
          refine forall_preorderAll_singleton.mpr
            ⟨⟨fun hname => absurd hname hchoice, fun _ hempty => ?_⟩, hall ih⟩
          exact hfilled (List.isEmpty_iff.mpr hempty)
    · rw [normalise_kept hchoice (Bool.eq_false_iff.mpr hrepetition)]
      refine forall_preorderAll_singleton.mpr
        ⟨⟨fun hname => absurd hname hchoice, fun hname => ?_⟩, hall ih⟩
      exact absurd hname hrepetition
  · by_cases hlength : (branches tree).length = 1
    · obtain ⟨branch, hbranches⟩ := length_eq_one_iff.mp hlength
      rw [normalise_of_single hchoice hbranches]
      exact ih branch (hbranches ▸ mem_singleton_self branch)
    · rw [normalise_choice hchoice hlength]
      refine forall_preorderAll_singleton.mpr ⟨⟨fun _ child hchild => ?_, fun hname => ?_⟩, hall ih⟩
      · obtain ⟨branch, hbranch, hchild⟩ :=
          mem_flatMap.mp (normalise_eq_flatMap (branches tree) ▸ hchild)
        exact name_ne_of_mem_normalise (name_ne_of_mem_branches hbranch) hchild
      · simp [isRepetition, isSkippable] at hname

/-- **In the normal form no choice is in a choice, and no repetition is empty.** -/
theorem forall_holdsNoChoice_and_isFilled (trees : List Tree) :
    ∀ node ∈ preorderAll (normalise trees), HoldsNoChoice node ∧ IsFilled node :=
  forall_preorderAll_normalise fun tree _ => holdsNoChoice_and_isFilled tree

/-! ### What the last two passes leave to do -/

mutual

/-- Whether a node is a repetition of nothing, or of nothing but such repetitions. -/
def isHollow : Tree → Bool
  | ⟨name, _, children⟩ => isRepetition name && areHollow children

/-- Whether there are only repetitions of nothing. -/
def areHollow : List Tree → Bool
  | [] => true
  | tree :: rest => isHollow tree && areHollow rest

end

/-- The nodes that are more than a repetition of nothing. -/
def lasting (trees : List Tree) : List Tree := trees.filter fun tree => !isHollow tree

/-- The name of what a node becomes: a wrapper with a text as its only child becomes a text. -/
def settledName (tree : Tree) : String :=
  if isSkippable tree.name = true ∧ tree.children.map Tree.name = ["text"]
    then "text" else tree.name

/-- A node of which the last two passes make no choice of one and no optional text. -/
structure IsStable (node : Tree) : Prop where
  /-- A choice does not have a single alternative that lasts. -/
  choice : node.name = "choice" → (lasting node.children).length ≠ 1
  /-- What lasts in an optional node is not a single text, unless the text is unwrapped. -/
  optional : isSkippable node.name = true → node.children.map Tree.name ≠ ["text"] →
    (lasting node.children).map settledName ≠ ["text"]

/-- The last two passes. -/
def tidy (trees : List Tree) : List Tree := dropEmpty (unwrapTextAll trees)

theorem tidy_cons (tree : Tree) (rest : List Tree) :
    tidy (tree :: rest) = tidy [tree] ++ tidy rest := by
  rw [tidy, unwrapTextAll, dropEmpty_cons]
  rfl

/-- A text is tidied in the same way with a wrapper around it and without. -/
theorem tidy_text {name : String} (h : isSkippable name = true) (attributes : Catalogue String)
    {text : Tree} (htext : text.name = "text") :
    tidy [⟨name, attributes, [text]⟩] = tidy [text] := by
  have hkept := @unwrapText_kept text (by simp [htext, isSkippable])
  rw [tidy, tidy, unwrapTextAll_eq_map, unwrapTextAll_eq_map, map_singleton, map_singleton,
    unwrapText_text h attributes htext, hkept, htext]

theorem tidy_kept {tree : Tree} (h : HoldsNoBareText tree) :
    tidy [tree] = if isRepetition tree.name && (tidy tree.children).isEmpty then []
      else [⟨tree.name, tree.attributes, tidy tree.children⟩] := by
  rw [tidy, unwrapTextAll, unwrapTextAll, unwrapText_kept h, dropEmpty_singleton]
  rfl

theorem areHollow_iff (trees : List Tree) : areHollow trees = true ↔ lasting trees = [] := by
  rw [lasting, filter_eq_nil_iff]
  induction trees with
  | nil => exact iff_of_true rfl fun _ htree => absurd htree not_mem_nil
  | cons tree rest ih => simp [areHollow, ih]

theorem isHollow_eq (tree : Tree) :
    isHollow tree = (isRepetition tree.name && areHollow tree.children) := by
  obtain ⟨name, attributes, children⟩ := tree
  rw [isHollow]

theorem isHollow_iff (tree : Tree) :
    isHollow tree = true ↔ isRepetition tree.name = true ∧ lasting tree.children = [] := by
  rw [isHollow_eq, Bool.and_eq_true, areHollow_iff]

theorem lasting_cons (tree : Tree) (rest : List Tree) :
    lasting (tree :: rest) = (if isHollow tree then [] else [tree]) ++ lasting rest := by
  rw [lasting, filter_cons, lasting]
  by_cases h : isHollow tree = true <;> simp [h]

mutual

/-- A node goes away exactly if it is a repetition of nothing. -/
theorem map_name_tidy_singleton : ∀ tree : Tree,
    (tidy [tree]).map Tree.name = if isHollow tree then [] else [settledName tree]
  | ⟨name, attributes, children⟩ => by
    have hchildren : (tidy children).isEmpty = areHollow children := by
      rw [Bool.eq_iff_iff, List.isEmpty_iff, areHollow_iff, ← map_eq_nil_iff,
        map_name_tidy children, map_eq_nil_iff]
    rw [isHollow]
    by_cases hbare : isSkippable name = true ∧ children.map Tree.name = ["text"]
    · obtain ⟨text, rfl, hname⟩ := map_eq_singleton_iff.mp hbare.2
      have hlasts : isHollow text = false := by
        rw [Bool.eq_false_iff, Ne, isHollow_iff, hname]
        simp [isRepetition, isSkippable]
      have hnames := map_name_tidy [text]
      rw [tidy_text hbare.1 attributes hname, hnames, lasting_cons, settledName, if_pos hbare,
        areHollow, hlasts]
      simp [lasting, settledName, hname, isSkippable]
    · rw [tidy_kept fun hskippable hnames => hbare ⟨hskippable, hnames⟩, hchildren,
        settledName, if_neg hbare]
      split <;> rfl

/-- What lasts is kept, and the rest goes away. -/
theorem map_name_tidy : ∀ trees : List Tree,
    (tidy trees).map Tree.name = (lasting trees).map settledName
  | [] => rfl
  | tree :: rest => by
    rw [tidy_cons, map_append, map_name_tidy_singleton tree, map_name_tidy rest,
      lasting_cons, map_append]
    split <;> rfl

end

mutual

/-- All nodes of a repetition of nothing are such repetitions. -/
theorem isHollow_of_mem_preorder : ∀ {tree : Tree}, isHollow tree = true →
    ∀ node ∈ tree.preorder, isHollow node = true
  | ⟨name, attributes, children⟩, h => by
    have hbelow := h
    rw [isHollow, Bool.and_eq_true] at hbelow
    rw [preorder_eq]
    exact forall_mem_cons.mpr ⟨h, isHollow_of_mem_preorderAll hbelow.2⟩

theorem isHollow_of_mem_preorderAll : ∀ {trees : List Tree}, areHollow trees = true →
    ∀ node ∈ preorderAll trees, isHollow node = true
  | [], _ => fun _ hnode => absurd hnode not_mem_nil
  | tree :: rest, h => by
    rw [areHollow, Bool.and_eq_true] at h
    rw [preorderAll, forall_mem_append]
    exact ⟨isHollow_of_mem_preorder h.1, isHollow_of_mem_preorderAll h.2⟩

end

theorem isStable_of_isHollow {tree : Tree} (h : isHollow tree = true) : IsStable tree := by
  obtain ⟨hrepetition, hnone⟩ := (isHollow_iff tree).mp h
  refine ⟨fun hname => ?_, fun _ _ => by simp [hnone]⟩
  simp [hname, isRepetition, isSkippable] at hrepetition

/-- A node that is no wrapper of a text alone is kept if it lasts. -/
theorem tidy_singleton {tree : Tree} (h : HoldsNoBareText tree) : tidy [tree] =
    if isHollow tree then [] else [⟨tree.name, tree.attributes, tidy tree.children⟩] := by
  have hempty : (tidy tree.children).isEmpty = areHollow tree.children := by
    rw [Bool.eq_iff_iff, List.isEmpty_iff, areHollow_iff, ← map_eq_nil_iff,
      map_name_tidy, map_eq_nil_iff]
  rw [tidy_kept h, hempty, isHollow_eq]

/-- What `IsStable` says is what the last two passes leave of such a node. -/
theorem isStable_iff {tree : Tree} (h : HoldsNoBareText tree) : IsStable tree ↔
    IsNoChoiceOfOne ⟨tree.name, tree.attributes, tidy tree.children⟩ ∧
      HoldsNoBareText ⟨tree.name, tree.attributes, tidy tree.children⟩ := by
  have hnames := map_name_tidy tree.children
  have hlength : (tidy tree.children).length = (lasting tree.children).length := by
    rw [← length_map Tree.name, hnames, length_map]
  rw [IsNoChoiceOfOne, HoldsNoBareText, hnames, hlength]
  exact ⟨fun hstable =>
    ⟨hstable.choice, fun hskippable => hstable.optional hskippable (h hskippable)⟩,
    fun hleft => ⟨hleft.1, fun hskippable _ => hleft.2 hskippable⟩⟩

mutual

theorem forall_tidy_singleton_iff : ∀ tree : Tree,
    (∀ node ∈ preorderAll (tidy [tree]), IsNoChoiceOfOne node ∧ HoldsNoBareText node) ↔
      ∀ node ∈ preorderAll [tree], IsStable node
  | ⟨name, attributes, children⟩ => by
    have ih := forall_tidy_iff children
    by_cases hbare : isSkippable name = true ∧ children.map Tree.name = ["text"]
    · obtain ⟨text, rfl, hname⟩ := map_eq_singleton_iff.mp hbare.2
      have hstable : IsStable ⟨name, attributes, [text]⟩ := by
        refine ⟨?_, fun _ hnames => absurd hbare.2 hnames⟩
        rintro rfl
        simp [isSkippable] at hbare
      rw [tidy_text hbare.1 attributes hname, ih, @forall_preorderAll_singleton _ ⟨_, _, _⟩]
      exact (and_iff_right hstable).symm
    · have hkept : HoldsNoBareText ⟨name, attributes, children⟩ := fun hskippable hnames =>
        hbare ⟨hskippable, hnames⟩
      rw [tidy_singleton hkept]
      split
      · rename_i hhollow
        refine iff_of_true (fun _ hnode => absurd hnode not_mem_nil) fun node hnode => ?_
        exact isStable_of_isHollow
          (isHollow_of_mem_preorder hhollow node (mem_preorderAll_singleton.mp hnode))
      · rw [forall_preorderAll_singleton, forall_preorderAll_singleton, ih, isStable_iff hkept]

/-- **The last two passes leave choices of one and optional texts exactly if a node is not
stable.** -/
theorem forall_tidy_iff : ∀ trees : List Tree,
    (∀ node ∈ preorderAll (tidy trees), IsNoChoiceOfOne node ∧ HoldsNoBareText node) ↔
      ∀ node ∈ preorderAll trees, IsStable node
  | [] =>
    iff_of_true (fun _ hnode => absurd hnode not_mem_nil) (fun _ hnode => absurd hnode not_mem_nil)
  | tree :: rest => by
    rw [tidy_cons, preorderAll_append, forall_mem_append, forall_tidy_singleton_iff tree,
      forall_tidy_iff rest, ← forall_mem_append, ← preorderAll_append, singleton_append]

end

/-- **How far the normal form is one.** No choice is in a choice and no repetition is empty. A
choice of one or an optional text is left, and a second run changes something, exactly if some node
is not stable once choices are flattened and collapsed. -/
theorem isNormal_normalise_iff (trees : List Tree) :
    (∀ node ∈ preorderAll (normalise trees), HoldsNoChoice node ∧ IsFilled node) ∧
    (IsNormal (normalise trees) ↔
      ∀ node ∈ preorderAll (collapseChoicesAll (flattenChoicesAll trees)), IsStable node) ∧
    (normalise (normalise trees) = normalise trees ↔ IsNormal (normalise trees)) := by
  have hsafe := forall_holdsNoChoice_and_isFilled trees
  refine ⟨hsafe, ?_, normalise_eq_self_iff⟩
  rw [← forall_tidy_iff]
  constructor
  · exact fun h node hnode => ⟨(h node hnode).isNoChoiceOfOne, (h node hnode).holdsNoBareText⟩
  · intro h node hnode
    have hnormal := h node hnode
    exact ⟨(hsafe node hnode).1, hnormal.1, hnormal.2, (hsafe node hnode).2⟩

/-- **The normal form need not be one**: an optional text is left in an optional one, and a choice
of one if another alternative goes away. -/
theorem not_forall_isNormal_normalise : ¬ ∀ trees : List Tree,
    IsNormal (normalise trees) ∧ normalise (normalise trees) = normalise trees := by
  intro h
  let text : Tree := .plain "text" []
  have hsame := (h [.plain "optional" [.plain "optional" [text]]]).2
  have hfirst : normalise [.plain "optional"
      [.plain "optional" [text]]] = [.plain "optional" [text]] := by
    cbv
  have hsecond : normalise [.plain "optional" [text]] = [text] := by cbv
  rw [hfirst, hsecond] at hsame
  exact absurd (congrArg (map Tree.name) hsame) (by decide)

end RelaxSchema.NormalForm
