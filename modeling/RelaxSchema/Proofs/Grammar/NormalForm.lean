import RelaxSchema.Proofs.Grammar.NormalNodes
import RelaxSchema.Proofs.Grammar.Patterns

/-!
# The normal form of patterns

* `NormalForm.normalise_forms`: the normal form of expanded patterns stands for the same tokens.

Each pass works on the children of a node before the node itself. So one induction over the pattern
(`isForm_of_step`) serves all passes, and a pass has to be looked at only for a node whose children
are done. Two of the passes find nothing to do: no text stands alone in something optional, and
nothing that is repeated is empty.
-/

namespace RelaxSchema.NormalForm

open List RelaxSchema.Tree

variable {grammar : Tree} {text : Bool}

/-- A node with its children changed. -/
def withChildren (pass : Tree → Tree) (tree : Tree) : Tree :=
  ⟨tree.name, tree.attributes, tree.children.map pass⟩

/-- A pass keeps what patterns stand for if it does so for a node whose children are done. -/
theorem isForm_of_step {pass : Tree → Tree}
    (hstep : ∀ {text : Bool} {tree : Tree}, Pattern "element" text (withChildren pass tree) →
      IsForm grammar text (withChildren pass tree) (pass tree))
    {tree : Tree} (h : Pattern "element" text tree) : IsForm grammar text tree (pass tree) := by
  have hforms : ∀ {flag : Bool} {trees : List Tree},
      (∀ tree ∈ trees, IsForm grammar flag tree (pass tree)) →
      Forall₂ (IsForm grammar flag) trees (trees.map pass) :=
    fun hall => forall₂_map_right_iff.mpr (forall₂_same.mpr hall)
  have hdone : ∀ {text : Bool} {tree : Tree}, IsForm grammar text tree (withChildren pass tree) →
      IsForm grammar text tree (pass tree) := fun hform => hform.trans (hstep hform.1)
  induction h with
  | atom hname _ ih =>
    exact hdone ⟨.atom hname (IsForm.forall_pattern (hforms ih)),
      words_congr_element hname hname rfl⟩
  | text hname hchildren =>
    exact hdone ⟨.text hname (by rw [withChildren, hchildren, map_nil]),
      by rw [words_text hname, words_text (show (withChildren pass _).name = "text" from hname)]⟩
  | group hname hne _ ih => exact hdone (.group hname hne (hforms ih))
  | choice hname hne _ ih => exact hdone (.choice hname hne (hforms ih))
  | repetition hname hne _ ih => exact hdone (.repetition hname hne (hforms ih))

/-! ### Choices inside choices -/

/-- The alternatives of a choice are those of the choices among them and the others. -/
theorem sum_words_flatMap_spliceChoice (trees : List Tree) :
    ((trees.flatMap spliceChoice).map fun tree => words grammar [tree]).sum
      = (trees.map fun tree => words grammar [tree]).sum := by
  induction trees with
  | nil => rfl
  | cons tree rest ih =>
    have htree :
        ((spliceChoice tree).map fun tree => words grammar [tree]).sum = words grammar [tree] := by
      unfold spliceChoice
      split
      · rename_i hname
        rw [words_choice hname]
      · rw [map_cons, map_nil, sum_cons, sum_nil, add_zero]
    rw [flatMap_cons, map_append, sum_append, htree, ih, map_cons, sum_cons]

theorem length_le_length_flatMap_spliceChoice {trees : List Tree}
    (h : ∀ tree ∈ trees, Pattern "element" text tree) :
    trees.length ≤ (trees.flatMap spliceChoice).length := by
  induction trees with
  | nil => exact Nat.le_refl _
  | cons tree rest ih =>
    obtain ⟨htree, hrest⟩ := forall_mem_cons.mp h
    -- No choice is empty, so none is spliced away.
    have hpos : 0 < (spliceChoice tree).length := by
      unfold spliceChoice
      split
      · rename_i hname
        exact length_pos_iff.mpr (htree.children_ne_nil (Or.inr (Or.inl hname)))
      · exact Nat.zero_lt_one
    have hlength := ih hrest
    rw [flatMap_cons, length_append, length_cons]
    omega

/-- Splicing choices into a choice leaves no text alone. -/
theorem pattern_of_mem_flatMap_spliceChoice {trees : List Tree}
    (h : ∀ tree ∈ trees, Pattern "element" (decide (2 ≤ trees.length)) tree) :
    ∀ child ∈ trees.flatMap spliceChoice,
      Pattern "element" (decide (2 ≤ (trees.flatMap spliceChoice).length)) child := by
  intro child hchild
  have hlength := length_le_length_flatMap_spliceChoice h
  obtain ⟨tree, htree, hmem⟩ := mem_flatMap.mp hchild
  unfold spliceChoice at hmem
  split at hmem
  · -- The alternatives of the inner choice are among those of the outer one.
    rename_i hname
    have hle : tree.children.length ≤ (trees.flatMap spliceChoice).length := by
      have hsplice : spliceChoice tree = tree.children := if_pos hname
      obtain ⟨before, after, rfl⟩ := append_of_mem htree
      rw [flatMap_append, flatMap_cons, length_append, length_append, hsplice]
      omega
    exact ((h tree htree).of_choice hname child hmem).mono hle
  · obtain rfl := mem_singleton.mp hmem
    exact (h child htree).mono hlength

theorem isForm_flattenChoices {tree : Tree} (h : Pattern "element" text tree) :
    IsForm grammar text tree (flattenChoices tree) := by
  refine isForm_of_step (fun {text tree} hdone => ?_) h
  obtain ⟨name, attributes, children⟩ := tree
  rw [flattenChoices, flattenChoicesAll_eq_map]
  by_cases hname : name = "choice"
  · subst hname
    have hne := hdone.children_ne_nil (Or.inr (Or.inl rfl))
    have hforall := hdone.of_choice rfl
    show IsForm grammar text ⟨"choice", attributes, children.map flattenChoices⟩
      ⟨"choice", attributes, (children.map flattenChoices).flatMap spliceChoice⟩
    refine ⟨.choice rfl ?_ (pattern_of_mem_flatMap_spliceChoice hforall), ?_⟩
    · have hlength := length_le_length_flatMap_spliceChoice hforall
      exact length_pos_iff.mp (Nat.lt_of_lt_of_le (length_pos_iff.mpr hne) hlength)
    · rw [words_choice rfl, words_choice rfl]
      exact sum_words_flatMap_spliceChoice _
  · rw [if_neg hname]
    exact ⟨hdone, rfl⟩

/-! ### Choices of one -/

/-- A choice of one stands for that one. -/
theorem isForm_onlyChoice {tree : Tree} (h : Pattern "element" text tree) :
    IsForm grammar text tree (onlyChoice tree) := by
  unfold onlyChoice
  split
  · rename_i attributes only
    have honly := h.of_choice rfl only (mem_singleton_self only)
    refine ⟨honly.weaken, ?_⟩
    rw [@words_choice grammar ⟨"choice", attributes, [only]⟩ rfl, map_singleton, sum_singleton]
  · exact ⟨h, rfl⟩

theorem isForm_collapseChoices {tree : Tree} (h : Pattern "element" text tree) :
    IsForm grammar text tree (collapseChoices tree) := by
  refine isForm_of_step (fun {text tree} hdone => ?_) h
  have hpass : collapseChoices tree = onlyChoice (withChildren collapseChoices tree) := by
    obtain ⟨name, attributes, children⟩ := tree
    rw [collapseChoices, collapseChoicesAll_eq_map]
    rfl
  rw [hpass]
  exact isForm_onlyChoice hdone

/-! ### Text in something optional -/

theorem name_unwrapText_text (attributes : Catalogue String) (children : List Tree) :
    (unwrapText ⟨"text", attributes, children⟩).name = "text" := by
  unfold unwrapText
  rfl

/-- There is no wrapper to take off a text. -/
theorem isForm_unwrapText {tree : Tree} (h : Pattern "element" text tree) :
    IsForm grammar text tree (unwrapText tree) := by
  refine isForm_of_step (fun {text tree} hdone => ?_) h
  have hpass : unwrapText tree = withChildren unwrapText tree := by
    obtain ⟨name, attributes, children⟩ := tree
    unfold unwrapText
    split
    · rename_i textAttributes textChildren hskippable
      have hrepetition : isRepetition name = true := by
        rw [isRepetition, hskippable, Bool.true_or]
      have hchild := hdone.of_repetition hrepetition _ mem_cons_self
      exact absurd (name_unwrapText_text textAttributes textChildren) hchild.name_ne_text
    · rw [unwrapTextAll_eq_map]
      rfl
  rw [hpass]
  exact ⟨hdone, rfl⟩

/-! ### Repetitions of nothing -/

/-- Nothing is dropped where every repetition holds something. -/
theorem dropEmpty_eq_map {trees : List Tree}
    (h : ∀ tree ∈ trees.map dropEmptyBelow, Pattern "element" text tree) :
    dropEmpty trees = trees.map dropEmptyBelow := by
  induction trees with
  | nil => rfl
  | cons tree rest ih =>
    rw [map_cons] at h ⊢
    obtain ⟨htree, hrest⟩ := forall_mem_cons.mp h
    have hkept : ¬ (isRepetition (dropEmptyBelow tree).name &&
        (dropEmptyBelow tree).children.isEmpty) = true := by
      rw [Bool.and_eq_true, List.isEmpty_iff]
      rintro ⟨hrepetition, hempty⟩
      exact htree.children_ne_nil (Or.inr (Or.inr hrepetition)) hempty
    rw [dropEmpty, ih hrest]
    exact if_neg hkept

theorem isForm_dropEmptyBelow {tree : Tree} (h : Pattern "element" text tree) :
    IsForm grammar text tree (dropEmptyBelow tree) := by
  refine isForm_of_step (fun {text tree} hdone => ?_) h
  have hpass : dropEmptyBelow tree = withChildren dropEmptyBelow tree := by
    obtain ⟨name, attributes, children⟩ := tree
    obtain ⟨flag, hchildren⟩ := hdone.exists_children
    rw [dropEmptyBelow, dropEmpty_eq_map hchildren]
    rfl
  rw [hpass]
  exact ⟨hdone, rfl⟩

/-! ### All passes -/

theorem forall₂_map {pass : Tree → Tree} (hpass : ∀ {tree : Tree}, Pattern "element" text tree →
    IsForm grammar text tree (pass tree)) {trees forms : List Tree}
    (h : Forall₂ (IsForm grammar text) trees forms) :
    Forall₂ (IsForm grammar text) trees (forms.map pass) :=
  forall₂_map_right_iff.mpr (h.imp fun _ _ hform => hform.trans (hpass hform.1))

/-- **The normal form of patterns consists of their forms.** -/
theorem normalise_forms {trees forms : List Tree} (h : Forall₂ (IsForm grammar text) trees forms) :
    Forall₂ (IsForm grammar text) trees (normalise forms) := by
  have hunwrapped : Forall₂ (IsForm grammar text) trees
      (unwrapTextAll (collapseChoicesAll (flattenChoicesAll forms))) := by
    rw [flattenChoicesAll_eq_map, collapseChoicesAll_eq_map, unwrapTextAll_eq_map]
    exact forall₂_map isForm_unwrapText
      (forall₂_map isForm_collapseChoices (forall₂_map isForm_flattenChoices h))
  have hdropped := forall₂_map isForm_dropEmptyBelow hunwrapped
  rw [normalise, dropEmpty_eq_map (IsForm.forall_pattern hdropped)]
  exact hdropped

end RelaxSchema.NormalForm
