import Mathlib
import RelaxSchema.Grammar.NormalForm

/-!
# The normal form of a node

The four passes of the normal form put together, one equation for each kind of node:

* `NormalForm.normalise_cons`: nodes side by side are normalised one by one;
* `NormalForm.normalise_kept`: a node that is neither a choice nor a repetition is kept;
* `NormalForm.normalise_choice`: a choice is made of its branches, and is left out if it has only
  one;
* `NormalForm.normalise_text`, `NormalForm.normalise_repetition`: a repetition is kept unless it can
  be left out around a text, or nothing is left in it.

The passes look at a choice together with the choices in it, so inductions over content do not go
down to the children of a choice but to its branches (`branches_induction`).
-/

namespace RelaxSchema.NormalForm

open List RelaxSchema.Tree

mutual

/-- The alternatives of a choice, with those of the choices among them in their place; of any other
node it is the only one. -/
def branches : Tree → List Tree
  | ⟨name, attributes, children⟩ =>
    if name = "choice" then branchesAll children else [⟨name, attributes, children⟩]

/-- The branches of several nodes. -/
def branchesAll : List Tree → List Tree
  | [] => []
  | tree :: rest => branches tree ++ branchesAll rest

end

theorem branches_choice {tree : Tree} (h : tree.name = "choice") :
    branches tree = branchesAll tree.children := by
  obtain ⟨name, attributes, children⟩ := tree
  rw [branches]
  exact if_pos h

theorem branches_other {tree : Tree} (h : tree.name ≠ "choice") : branches tree = [tree] := by
  obtain ⟨name, attributes, children⟩ := tree
  rw [branches]
  exact if_neg h

theorem branchesAll_eq_flatMap (trees : List Tree) :
    branchesAll trees = trees.flatMap branches := by
  induction trees with
  | nil => rfl
  | cons tree rest ih => rw [branchesAll, ih, flatMap_cons]

/-! ### Induction over branches -/

section Induction

variable {P : Tree → Prop}

/-- What holds of the branches of a node holds of the node, if choices are no obstacle. -/
theorem of_forall_branches
    (hchoice : ∀ tree : Tree, tree.name = "choice" → (∀ branch ∈ branches tree, P branch) → P tree)
    {tree : Tree} (h : ∀ branch ∈ branches tree, P branch) : P tree := by
  by_cases hname : tree.name = "choice"
  · exact hchoice tree hname h
  · rw [branches_other hname] at h
    exact h tree (mem_singleton_self tree)

mutual

/-- The branches of a node are no choices, and what is handed on from children and branches holds of
them. -/
theorem forall_branches
    (hother : ∀ tree : Tree, tree.name ≠ "choice" → (∀ child ∈ tree.children, P child) → P tree)
    (hchoice : ∀ tree : Tree, tree.name = "choice" → (∀ branch ∈ branches tree, P branch) →
      P tree) : ∀ tree : Tree, ∀ branch ∈ branches tree, branch.name ≠ "choice" ∧ P branch
  | ⟨name, attributes, children⟩ => by
    have hchildren := forall_branchesAll hother hchoice children
    intro branch hbranch
    by_cases hname : name = "choice"
    · rw [branches, if_pos hname, branchesAll_eq_flatMap] at hbranch
      obtain ⟨child, hchild, hbranch⟩ := mem_flatMap.mp hbranch
      exact hchildren child hchild branch hbranch
    · rw [branches, if_neg hname, mem_singleton] at hbranch
      subst hbranch
      refine ⟨hname, hother _ hname fun child hchild => of_forall_branches hchoice ?_⟩
      exact fun branch hbranch => (hchildren child hchild branch hbranch).2

theorem forall_branchesAll
    (hother : ∀ tree : Tree, tree.name ≠ "choice" → (∀ child ∈ tree.children, P child) → P tree)
    (hchoice : ∀ tree : Tree, tree.name = "choice" →
      (∀ branch ∈ branches tree, P branch) → P tree) :
    ∀ trees : List Tree, ∀ tree ∈ trees, ∀ branch ∈ branches tree, branch.name ≠ "choice" ∧ P branch
  | [] => fun _ htree => absurd htree not_mem_nil
  | first :: rest =>
    forall_mem_cons.mpr
      ⟨forall_branches hother hchoice first, forall_branchesAll hother hchoice rest⟩

end

/-- **Induction over the branches of choices and the children of other nodes.** -/
theorem branches_induction
    (hother : ∀ tree : Tree, tree.name ≠ "choice" → (∀ child ∈ tree.children, P child) → P tree)
    (hchoice : ∀ tree : Tree, tree.name = "choice" → (∀ branch ∈ branches tree, P branch) → P tree)
    (tree : Tree) : P tree :=
  of_forall_branches hchoice fun branch hbranch =>
    (forall_branches hother hchoice tree branch hbranch).2

end Induction

theorem name_ne_of_mem_branches {tree branch : Tree} (h : branch ∈ branches tree) :
    branch.name ≠ "choice" :=
  (@forall_branches (fun _ => True) (fun _ _ _ => trivial) (fun _ _ _ => trivial) tree branch h).1

/-! ### Nodes side by side -/

/-- A node after the three passes that keep it in its place. -/
def settle (tree : Tree) : Tree := unwrapText (collapseChoices (flattenChoices tree))

theorem normalise_eq (trees : List Tree) : normalise trees = dropEmpty (trees.map settle) := by
  rw [normalise]
  congr 1
  induction trees with
  | nil => rfl
  | cons tree rest ih =>
    rw [flattenChoicesAll, collapseChoicesAll, unwrapTextAll, ih]
    rfl

theorem dropEmpty_cons (tree : Tree) (rest : List Tree) :
    dropEmpty (tree :: rest) = dropEmpty [tree] ++ dropEmpty rest := by
  rw [dropEmpty, dropEmpty]
  split <;> rfl

theorem normalise_cons (tree : Tree) (rest : List Tree) :
    normalise (tree :: rest) = normalise [tree] ++ normalise rest := by
  rw [normalise_eq, map_cons, dropEmpty_cons, ← normalise_eq, normalise_eq [tree]]
  rfl

theorem normalise_eq_flatMap (trees : List Tree) :
    normalise trees = trees.flatMap fun tree => normalise [tree] := by
  induction trees with
  | nil => rfl
  | cons tree rest ih => rw [normalise_cons, ih, flatMap_cons]

theorem normalise_append (before after : List Tree) :
    normalise (before ++ after) = normalise before ++ normalise after := by
  rw [normalise_eq_flatMap, flatMap_append, ← normalise_eq_flatMap, ← normalise_eq_flatMap]

/-- Nothing is left of some nodes if nothing is left of each. -/
theorem normalise_eq_nil_iff {trees : List Tree} :
    normalise trees = [] ↔ ∀ tree ∈ trees, normalise [tree] = [] := by
  rw [normalise_eq_flatMap, flatMap_eq_nil_iff]

/-! ### One equation for each kind of node -/

theorem flattenChoices_other {tree : Tree} (h : tree.name ≠ "choice") :
    flattenChoices tree = ⟨tree.name, tree.attributes, flattenChoicesAll tree.children⟩ := by
  obtain ⟨name, attributes, children⟩ := tree
  rw [flattenChoices]
  exact congrArg (Tree.mk name attributes) (if_neg h)

theorem collapseChoices_other {tree : Tree} (h : tree.name ≠ "choice") :
    collapseChoices tree = ⟨tree.name, tree.attributes, collapseChoicesAll tree.children⟩ := by
  obtain ⟨name, attributes, children⟩ := tree
  rw [collapseChoices]
  unfold onlyChoice
  split
  · rename_i hchoice
    exact absurd (Tree.mk.inj hchoice).1 h
  · rfl

theorem flattenChoicesAll_eq_map (trees : List Tree) :
    flattenChoicesAll trees = trees.map flattenChoices := by
  induction trees with
  | nil => rfl
  | cons tree rest ih => rw [flattenChoicesAll, ih, map_cons]

theorem collapseChoicesAll_eq_map (trees : List Tree) :
    collapseChoicesAll trees = trees.map collapseChoices := by
  induction trees with
  | nil => rfl
  | cons tree rest ih => rw [collapseChoicesAll, ih, map_cons]

theorem unwrapTextAll_eq_map (trees : List Tree) : unwrapTextAll trees = trees.map unwrapText := by
  induction trees with
  | nil => rfl
  | cons tree rest ih => rw [unwrapTextAll, ih, map_cons]

mutual

/-- A choice that is flattened holds its branches, flattened. -/
theorem spliceChoice_flattenChoices : ∀ tree : Tree,
    spliceChoice (flattenChoices tree) = (branches tree).map flattenChoices
  | ⟨name, attributes, children⟩ => by
    by_cases hname : name = "choice"
    · subst hname
      rw [flattenChoices, branches, if_pos rfl, if_pos rfl, ← flatMap_spliceChoice children]
      exact if_pos rfl
    · rw [branches, if_neg hname, map_singleton, flattenChoices_other hname]
      exact if_neg hname

theorem flatMap_spliceChoice : ∀ trees : List Tree,
    (flattenChoicesAll trees).flatMap spliceChoice = (branchesAll trees).map flattenChoices
  | [] => rfl
  | tree :: rest => by
    rw [flattenChoicesAll, flatMap_cons, branchesAll, map_append, spliceChoice_flattenChoices tree,
      flatMap_spliceChoice rest]

end

theorem flattenChoices_choice {tree : Tree} (h : tree.name = "choice") :
    flattenChoices tree = ⟨"choice", tree.attributes, (branches tree).map flattenChoices⟩ := by
  obtain ⟨name, attributes, children⟩ := tree
  obtain rfl := h
  rw [flattenChoices, branches_choice rfl, ← flatMap_spliceChoice]
  rfl

/-- The first two passes put the only branch of a choice in its place. -/
theorem collapseChoices_of_single {tree branch : Tree} (h : tree.name = "choice")
    (hbranches : branches tree = [branch]) :
    collapseChoices (flattenChoices tree) = collapseChoices (flattenChoices branch) := by
  rw [flattenChoices_choice h, hbranches]
  rfl

/-- The first two passes leave a choice with other than one branch. -/
theorem collapseChoices_of_length {tree : Tree} (h : tree.name = "choice")
    (hlength : (branches tree).length ≠ 1) :
    collapseChoices (flattenChoices tree) =
      ⟨"choice", tree.attributes, collapseChoicesAll (flattenChoicesAll (branches tree))⟩ := by
  rw [flattenChoices_choice h, collapseChoices, flattenChoicesAll_eq_map]
  unfold onlyChoice
  split
  · rename_i hchoice
    have hone := congrArg List.length (Tree.mk.inj hchoice).2.2
    rw [collapseChoicesAll_eq_map, length_map, length_map] at hone
    exact absurd hone hlength
  · rfl

/-- A node is kept by the third pass unless a text is alone in something optional. -/
theorem unwrapText_kept {tree : Tree}
    (h : isSkippable tree.name = true → tree.children.map Tree.name ≠ ["text"]) :
    unwrapText tree = ⟨tree.name, tree.attributes, unwrapTextAll tree.children⟩ := by
  obtain ⟨name, attributes, children⟩ := tree
  unfold unwrapText
  split
  · rename_i hskippable
    exact absurd rfl (h hskippable)
  · rfl

theorem unwrapText_text {name : String} (h : isSkippable name = true)
    (attributes : Catalogue String) {text : Tree} (htext : text.name = "text") :
    unwrapText ⟨name, attributes, [text]⟩ =
      ⟨"text", text.attributes, unwrapTextAll text.children⟩ := by
  obtain ⟨_, textAttributes, textChildren⟩ := text
  obtain rfl := htext
  rw [unwrapText.eq_def]
  simp only [h]

theorem dropEmpty_singleton (tree : Tree) : dropEmpty [tree] =
    if isRepetition tree.name && (dropEmpty tree.children).isEmpty then []
    else [⟨tree.name, tree.attributes, dropEmpty tree.children⟩] := by
  obtain ⟨name, attributes, children⟩ := tree
  rw [dropEmpty, dropEmptyBelow, dropEmpty]

/-- **What is neither a choice nor a repetition is kept.** -/
theorem normalise_kept {tree : Tree} (hchoice : tree.name ≠ "choice")
    (hrepetition : isRepetition tree.name = false) :
    normalise [tree] = [⟨tree.name, tree.attributes, normalise tree.children⟩] := by
  have hsettle : settle tree = ⟨tree.name, tree.attributes,
      unwrapTextAll (collapseChoicesAll (flattenChoicesAll tree.children))⟩ := by
    rw [settle, flattenChoices_other hchoice]
    have hcollapse := @collapseChoices_other
      ⟨tree.name, tree.attributes, flattenChoicesAll tree.children⟩ hchoice
    rw [hcollapse]
    refine unwrapText_kept fun hskippable => ?_
    rw [isRepetition, hskippable] at hrepetition
    exact absurd hrepetition (by simp)
  rw [normalise_eq, map_singleton, hsettle, dropEmpty_singleton, hrepetition]
  rfl

/-- **A choice of one is that one.** -/
theorem normalise_of_single {tree branch : Tree} (h : tree.name = "choice")
    (hbranches : branches tree = [branch]) : normalise [tree] = normalise [branch] := by
  rw [normalise_eq, normalise_eq, map_singleton, map_singleton, settle, settle,
    collapseChoices_of_single h hbranches]

/-- **A choice holds what is left of its branches.** -/
theorem normalise_choice {tree : Tree} (h : tree.name = "choice")
    (hlength : (branches tree).length ≠ 1) :
    normalise [tree] = [⟨"choice", tree.attributes, normalise (branches tree)⟩] := by
  have hsettle : settle tree = ⟨"choice", tree.attributes,
      unwrapTextAll (collapseChoicesAll (flattenChoicesAll (branches tree)))⟩ := by
    rw [settle, collapseChoices_of_length h hlength]
    have hchoice : isSkippable "choice" = false := rfl
    exact unwrapText_kept fun hskippable =>
      absurd (hchoice.symm.trans hskippable) Bool.false_ne_true
  rw [normalise_eq, map_singleton, hsettle, dropEmpty_singleton]
  rfl

/-- Whether some nodes are a single text, alone in any number of choices. -/
def isBareText : List Tree → Bool
  | [tree] => (branches tree).map Tree.name = ["text"]
  | _ => false

theorem isBareText_cons (tree : Tree) (rest : List Tree) : isBareText (tree :: rest) =
    (rest.isEmpty && decide ((branches tree).map Tree.name = ["text"])) := by
  cases rest with
  | nil => exact (Bool.true_and _).symm
  | cons _ _ => rfl

theorem name_collapseChoices_iff (tree : Tree) :
    (collapseChoices (flattenChoices tree)).name = "text" ↔
      (branches tree).map Tree.name = ["text"] := by
  refine branches_induction
    (P := fun tree => (collapseChoices (flattenChoices tree)).name = "text" ↔
    (branches tree).map Tree.name =
      ["text"]) (fun tree hname _ => ?_) (fun tree hname ih => ?_) tree
  · rw [flattenChoices_other hname, branches_other hname]
    have hcollapse := @collapseChoices_other
      ⟨tree.name, tree.attributes, flattenChoicesAll tree.children⟩ hname
    rw [hcollapse]
    simp
  · by_cases hlength : (branches tree).length = 1
    · obtain ⟨branch, hbranches⟩ := length_eq_one_iff.mp hlength
      have hbranch : branch ∈ branches tree := hbranches ▸ mem_singleton_self branch
      rw [collapseChoices_of_single hname hbranches, ih branch hbranch, hbranches,
        branches_other (name_ne_of_mem_branches hbranch)]
    · rw [collapseChoices_of_length hname hlength]
      constructor
      · intro htext
        simp at htext
      · intro hnames
        exact absurd (by simpa using congrArg List.length hnames) hlength

theorem isBareText_iff (trees : List Tree) : isBareText trees = true ↔
    (collapseChoicesAll (flattenChoicesAll trees)).map Tree.name = ["text"] := by
  rw [flattenChoicesAll_eq_map, collapseChoicesAll_eq_map, map_map, map_map]
  match trees with
  | [] => simp [isBareText]
  | [tree] =>
    rw [isBareText, decide_eq_true_iff, ← name_collapseChoices_iff, map_singleton]
    simp
  | _ :: _ :: _ => simp [isBareText]

theorem settle_of_isRepetition {tree : Tree} (h : isRepetition tree.name = true) :
    settle tree = unwrapText ⟨tree.name, tree.attributes,
      collapseChoicesAll (flattenChoicesAll tree.children)⟩ := by
  have hchoice : tree.name ≠ "choice" := by
    intro hname
    simp [hname, isRepetition, isSkippable] at h
  rw [settle, flattenChoices_other hchoice]
  exact congrArg unwrapText (@collapseChoices_other
    ⟨tree.name, tree.attributes, flattenChoicesAll tree.children⟩ hchoice)

/-- **A text loses a wrapper that only allows it to be absent.** -/
theorem normalise_text {tree : Tree} (hskippable : isSkippable tree.name = true)
    (hbare : isBareText tree.children = true) :
    ∃ text, normalise [tree] = [text] ∧ text.name = "text" := by
  have hrepetition : isRepetition tree.name = true := by
    rw [isRepetition, hskippable, Bool.true_or]
  obtain ⟨text, htext, hname⟩ := map_eq_singleton_iff.mp ((isBareText_iff tree.children).mp hbare)
  rw [normalise_eq, map_singleton, settle_of_isRepetition hrepetition, htext,
    unwrapText_text hskippable tree.attributes hname, dropEmpty_singleton]
  exact ⟨_, rfl, rfl⟩

/-- A text that loses its wrapper is what the text is without it. -/
theorem normalise_unwrapped {tree : Tree} (hskippable : isSkippable tree.name = true)
    (hbare : isBareText tree.children = true) : normalise [tree] = normalise tree.children := by
  have hrepetition : isRepetition tree.name = true := by rw [isRepetition, hskippable, Bool.true_or]
  obtain ⟨text, htext, hname⟩ := map_eq_singleton_iff.mp ((isBareText_iff tree.children).mp hbare)
  have hkept := @unwrapText_kept text (by simp [hname, isSkippable])
  rw [normalise_eq, map_singleton, settle_of_isRepetition hrepetition, normalise, htext,
    unwrapText_text hskippable tree.attributes hname, unwrapTextAll, unwrapTextAll, hkept, hname]

/-- **A repetition is kept if something is left in it.** -/
theorem normalise_repetition {tree : Tree} (hrepetition : isRepetition tree.name = true)
    (hbare : isSkippable tree.name = true → isBareText tree.children = false) :
    normalise [tree] = if (normalise tree.children).isEmpty then []
      else [⟨tree.name, tree.attributes, normalise tree.children⟩] := by
  have hkept : settle tree = ⟨tree.name, tree.attributes,
      unwrapTextAll (collapseChoicesAll (flattenChoicesAll tree.children))⟩ := by
    rw [settle_of_isRepetition hrepetition]
    refine unwrapText_kept fun hskippable htext => ?_
    exact absurd ((isBareText_iff tree.children).mpr htext) (by rw [hbare hskippable]; simp)
  rw [normalise_eq, map_singleton, hkept, dropEmpty_singleton, hrepetition, Bool.true_and]
  rfl

end RelaxSchema.NormalForm
