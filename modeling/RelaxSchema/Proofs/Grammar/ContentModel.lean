import RelaxSchema.Grammar.ContentModel
import RelaxSchema.Proofs.Grammar.Languages
import RelaxSchema.Proofs.Grammar.Patterns

/-!
# The content model of patterns

* `Tree.language_contentModel`: the content model of expanded patterns has the words that they stand
  for, and is no interleave.
-/

namespace RelaxSchema.Tree

open Computability

variable {grammar : Tree}

/-- A model with the words that a tree stands for. -/
def IsModel (grammar : Tree) (tree : Tree) (model : Model) : Prop :=
  model.language = words grammar [tree] ∧ ∀ blocks, model ≠ .interleave blocks

section Models

variable {trees : List Tree} {models : List Model}

theorem map_language (h : List.Forall₂ (IsModel grammar) trees models) :
    models.map Model.language = trees.map fun tree => words grammar [tree] := by
  induction h with
  | nil => rfl
  | cons hfirst _ ih => rw [List.map_cons, List.map_cons, ih, hfirst.1]

theorem language_sideBySide_eq (h : List.Forall₂ (IsModel grammar) trees models) :
    (sideBySide models).language = words grammar trees := by
  rw [language_sideBySide, map_language h, ← words_eq_prod]

theorem sideBySide_ne_interleave (h : List.Forall₂ (IsModel grammar) trees models) :
    ∀ blocks, sideBySide models ≠ .interleave blocks := by
  intro blocks
  unfold sideBySide
  split
  · rename_i block
    obtain ⟨tree, -, -, hblock⟩ := exists_right_of_forall₂ h.flip (List.mem_singleton_self block)
    exact hblock blocks
  · simp

/-- Each block has a model if it can have only one. -/
theorem blockModels_forall₂ (h : ∀ tree ∈ trees, ∀ result, blockModel tree = .ok result →
    ∃ model, result = [model] ∧ IsModel grammar tree model)
    (hmodels : blockModels trees = .ok models) : List.Forall₂ (IsModel grammar) trees models := by
  induction trees generalizing models with
  | nil =>
    obtain rfl := Except.ok.inj hmodels
    exact .nil
  | cons tree rest ih =>
    rw [blockModels] at hmodels
    obtain ⟨first, hfirst, hmodels⟩ := bind_eq_ok_iff.mp hmodels
    obtain ⟨others, hothers, hmodels⟩ := bind_eq_ok_iff.mp hmodels
    obtain rfl := Except.ok.inj hmodels
    obtain ⟨model, rfl, hmodel⟩ := h tree List.mem_cons_self first hfirst
    exact .cons hmodel (ih (fun other hother => h other (List.mem_cons_of_mem _ hother)) hothers)

/-- The blocks under an operator, side by side, have the words that they stand for together. -/
theorem exists_sideBySide (operator : Model → Model) (h : ∀ tree ∈ trees, ∀ result,
    blockModel tree = .ok result → ∃ model, result = [model] ∧ IsModel grammar tree model)
    {result : List Model}
    (hresult : (fun blocks => [operator (sideBySide blocks)]) <$> blockModels trees = .ok result) :
    ∃ block, result = [operator block] ∧ block.language = words grammar trees := by
  obtain ⟨models, hmodels, rfl⟩ := map_eq_ok_iff.mp hresult
  exact ⟨sideBySide models, rfl, language_sideBySide_eq (blockModels_forall₂ h hmodels)⟩

end Models

/-- **The model of a pattern has the words that the pattern stands for.** -/
theorem isModel_blockModel {text : Bool} {tree : Tree} (h : Pattern "element" text tree)
    {result : List Model} (hresult : blockModel tree = .ok result) :
    ∃ model, result = [model] ∧ IsModel grammar tree model := by
  induction h generalizing result with
  | @atom text tree hname _ _ =>
    obtain ⟨_, attributes, children⟩ := tree
    obtain rfl := hname
    rw [blockModel] at hresult
    cases hattribute : attributes.find? "name" with
    | none => simp [hattribute] at hresult
    | some name =>
      rw [hattribute] at hresult
      obtain rfl := Except.ok.inj hresult
      refine ⟨.token name, rfl, ?_, by simp⟩
      have hname : (⟨"element", attributes, children⟩ : Tree).attribute? "name" = some name :=
        hattribute
      rw [words_element rfl hname]
      rfl
  | @text tree hname _ =>
    obtain ⟨_, attributes, children⟩ := tree
    obtain rfl := hname
    obtain rfl := Except.ok.inj hresult
    refine ⟨.token textToken, rfl, ?_, by simp⟩
    rw [words_text rfl]
    rfl
  | @group text tree hname _ _ ih =>
    obtain ⟨_, attributes, children⟩ := tree
    obtain rfl := hname
    obtain ⟨models, hmodels, rfl⟩ := map_eq_ok_iff.mp hresult
    have hall := blockModels_forall₂ (fun child hchild _ => ih child hchild) hmodels
    refine ⟨.sequence models, rfl, ?_, by simp⟩
    rw [words_group rfl, words_eq_prod, ← map_language hall, Model.language, Model.languages_eq_map]
  | @choice text tree hname hne _ ih =>
    obtain ⟨_, attributes, children⟩ := tree
    obtain rfl := hname
    obtain ⟨models, hmodels, rfl⟩ := map_eq_ok_iff.mp hresult
    have hall := blockModels_forall₂ (fun child hchild _ => ih child hchild) hmodels
    -- A choice of nothing would have no word in a model; a pattern has an alternative.
    have hsome : models.isEmpty = false := by
      rw [List.isEmpty_eq_false_iff]
      rintro rfl
      exact hne (List.forall₂_nil_right_iff.mp hall)
    refine ⟨.choice models, rfl, ?_, by simp⟩
    rw [words_choice rfl, ← map_language hall, Model.language, Model.languages_eq_map, hsome]
    rfl
  | @repetition text tree hname _ _ ih =>
    obtain ⟨name, attributes, children⟩ := tree
    have hblocks : ∀ child ∈ children, ∀ result, blockModel child = .ok result →
        ∃ model, result = [model] ∧ IsModel grammar child model :=
      fun child hchild _ => ih child hchild
    rcases isRepetition_iff.mp hname with hoptional | hzeroOrMore | honeOrMore
    · obtain rfl : name = "optional" := hoptional
      obtain ⟨block, rfl, hblock⟩ := exists_sideBySide .optional hblocks hresult
      exact ⟨.optional block, rfl, by rw [words_optional rfl, ← hblock, Model.language], by simp⟩
    · obtain rfl : name = "zeroOrMore" := hzeroOrMore
      obtain ⟨block, rfl, hblock⟩ := exists_sideBySide .kleene hblocks hresult
      exact ⟨.kleene block, rfl, by rw [words_zeroOrMore rfl, ← hblock, Model.language], by simp⟩
    · obtain rfl : name = "oneOrMore" := honeOrMore
      obtain ⟨block, rfl, hblock⟩ := exists_sideBySide .plus hblocks hresult
      exact ⟨.plus block, rfl, by rw [words_oneOrMore rfl, ← hblock, Model.language], by simp⟩

/-- **The content model of patterns has the words that they stand for**, and no interleave. -/
theorem language_contentModel {text : Bool} {trees : List Tree}
    (h : ∀ tree ∈ trees, Pattern "element" text tree) {model : Model}
    (hmodel : contentModel trees = .ok model) :
    model.language = words grammar trees ∧ ∀ blocks, model ≠ .interleave blocks := by
  obtain ⟨models, hmodels, rfl⟩ := map_eq_ok_iff.mp hmodel
  have hall : List.Forall₂ (IsModel grammar) trees models :=
    blockModels_forall₂ (fun tree htree _ => isModel_blockModel (h tree htree)) hmodels
  exact ⟨language_sideBySide_eq hall, sideBySide_ne_interleave hall⟩

end RelaxSchema.Tree
