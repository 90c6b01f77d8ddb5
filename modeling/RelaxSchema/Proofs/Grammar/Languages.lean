import RelaxSchema.Grammar.ContentModel
import RelaxSchema.Grammar.NormalForm
import RelaxSchema.Proofs.Content.Language

/-!
# The languages of blocks

What the blocks of a content model stand for, read off the nodes that they come from. No node is
refused here, so the languages of two lists of nodes can be compared before it is known that both
have models.

* `Tree.language_of_contentModel`: a content model has the language of its blocks one after the
  other;
* `Tree.interleaves_of_contentModel`: its interleaves are those of its blocks.
-/

namespace RelaxSchema.Tree

open Computability

/-- The words of some alternatives; nothing, if there is none. -/
def alternation (languages : List (Language String)) : Language String :=
  if languages.isEmpty then 1 else languages.sum

mutual

/-- The language of the block that a node becomes; none, if it becomes no block. -/
def blockLanguages : Tree → List (Language String)
  | ⟨name, attributes, children⟩ =>
    match name with
    | "element" => (attributes.find? "name").toList.map fun element => {[element]}
    | "text" => [{[textToken]}]
    | "group" => [(languages children).prod]
    | "choice" => [alternation (languages children)]
    | "interleave" => [mergeLanguage (languages children)]
    | "optional" => [(languages children).prod + 1]
    | "oneOrMore" => [(languages children).prod * (languages children).prod∗]
    | "zeroOrMore" => [(languages children).prod∗]
    | _ => []

/-- The languages of the blocks that some nodes become. -/
def languages : List Tree → List (Language String)
  | [] => []
  | tree :: rest => blockLanguages tree ++ languages rest

end

mutual

/-- The languages of the blocks, for each interleave that a node becomes or holds, but for those in
another one. -/
def interleaves : Tree → List (List (Language String))
  | ⟨name, _, children⟩ =>
    match name with
    | "group" => interleavesAll children
    | "choice" => interleavesAll children
    | "interleave" => [languages children]
    | "optional" => interleavesAll children
    | "oneOrMore" => interleavesAll children
    | "zeroOrMore" => interleavesAll children
    | _ => []

/-- The interleaves of several nodes. -/
def interleavesAll : List Tree → List (List (Language String))
  | [] => []
  | tree :: rest => interleaves tree ++ interleavesAll rest

end

/-- The words of some blocks one after the other. -/
def sequenceLanguage (trees : List Tree) : Language String := (languages trees).prod

/-- The words of a repetition, by the name of its node, with those of what is repeated. -/
def repetitionLanguage (name : String) (language : Language String) : Language String :=
  if name = "optional" then language + 1
  else if name = "zeroOrMore" then language∗
  else language * language∗

/-! ### One equation for each kind of node -/

section Nodes

variable {tree : Tree}

theorem blockLanguages_element (h : tree.name = "element") {name : String}
    (hattribute : tree.attribute? "name" = some name) : blockLanguages tree = [{[name]}] := by
  obtain ⟨_, attributes, children⟩ := tree
  obtain rfl := h
  rw [blockLanguages, show attributes.find? "name" = some name from hattribute]
  rfl

theorem blockLanguages_text (h : tree.name = "text") : blockLanguages tree = [{[textToken]}] := by
  obtain ⟨_, attributes, children⟩ := tree
  obtain rfl := h
  rw [blockLanguages]

theorem blockLanguages_group (h : tree.name = "group") :
    blockLanguages tree = [sequenceLanguage tree.children] := by
  obtain ⟨_, attributes, children⟩ := tree
  obtain rfl := h
  rw [blockLanguages]
  rfl

theorem blockLanguages_choice (h : tree.name = "choice") :
    blockLanguages tree = [alternation (languages tree.children)] := by
  obtain ⟨_, attributes, children⟩ := tree
  obtain rfl := h
  rw [blockLanguages]

theorem blockLanguages_repetition (h : NormalForm.isRepetition tree.name = true) :
    blockLanguages tree = [repetitionLanguage tree.name (sequenceLanguage tree.children)] := by
  obtain ⟨name, attributes, children⟩ := tree
  simp only [NormalForm.isRepetition, NormalForm.isSkippable, Bool.or_eq_true,
    decide_eq_true_iff] at h
  rcases h with (rfl | rfl) | rfl <;> rw [blockLanguages] <;> rfl

theorem interleaves_text (h : tree.name = "text") : interleaves tree = [] := by
  obtain ⟨_, attributes, children⟩ := tree
  obtain rfl := h
  rfl

theorem interleaves_group (h : tree.name = "group") :
    interleaves tree = interleavesAll tree.children := by
  obtain ⟨_, attributes, children⟩ := tree
  obtain rfl := h
  rw [interleaves]

/-- Of the children of a node only what they read one after the other matters, unless they are
alternatives or are interleaved. -/
theorem blockLanguages_congr {name : String} {attributes : Catalogue String}
    {children children' : List Tree} (h : sequenceLanguage children = sequenceLanguage children')
    (hsame : name = "choice" ∨ name = "interleave" → languages children = languages children') :
    blockLanguages ⟨name, attributes, children⟩ = blockLanguages ⟨name, attributes, children'⟩ := by
  have hprod : (languages children).prod = (languages children').prod := h
  unfold blockLanguages
  split <;> simp_all

theorem interleaves_congr {name : String} {attributes : Catalogue String}
    {children children' : List Tree} (h : interleavesAll children = interleavesAll children')
    (hsame : name = "choice" ∨ name = "interleave" → languages children = languages children') :
    interleaves ⟨name, attributes, children⟩ = interleaves ⟨name, attributes, children'⟩ := by
  unfold interleaves
  split <;> simp_all

end Nodes

/-! ### Blocks one after the other -/

theorem languages_append (before after : List Tree) :
    languages (before ++ after) = languages before ++ languages after := by
  induction before with
  | nil => rfl
  | cons tree rest ih => rw [List.cons_append, languages, languages, ih, List.append_assoc]

theorem languages_singleton (tree : Tree) : languages [tree] = blockLanguages tree := by
  rw [languages, languages, List.append_nil]

theorem sequenceLanguage_nil : sequenceLanguage [] = 1 := rfl

theorem sequenceLanguage_append (before after : List Tree) :
    sequenceLanguage (before ++ after) = sequenceLanguage before * sequenceLanguage after := by
  rw [sequenceLanguage, languages_append, List.prod_append]
  rfl

theorem sequenceLanguage_cons (tree : Tree) (rest : List Tree) :
    sequenceLanguage (tree :: rest) = sequenceLanguage [tree] * sequenceLanguage rest :=
  sequenceLanguage_append [tree] rest

theorem interleavesAll_append (before after : List Tree) :
    interleavesAll (before ++ after) = interleavesAll before ++ interleavesAll after := by
  induction before with
  | nil => rfl
  | cons tree rest ih => rw [List.cons_append, interleavesAll, interleavesAll, ih,
      List.append_assoc]

theorem interleavesAll_eq_flatMap (trees : List Tree) :
    interleavesAll trees = trees.flatMap interleaves := by
  induction trees with
  | nil => rfl
  | cons tree rest ih => rw [interleavesAll, ih, List.flatMap_cons]

theorem interleavesAll_singleton (tree : Tree) : interleavesAll [tree] = interleaves tree := by
  rw [interleavesAll, interleavesAll, List.append_nil]

/-! ### Models -/

theorem language_sideBySide (models : List Model) :
    (sideBySide models).language = (models.map Model.language).prod := by
  unfold sideBySide
  split
  · rw [List.map_singleton, List.prod_singleton]
  · rw [Model.language, Model.languages_eq_map]

mutual

/-- The models of a node have its languages. -/
theorem map_language_blockModel : ∀ (tree : Tree) {models : List Model},
    blockModel tree = .ok models → models.map Model.language = blockLanguages tree
  | ⟨name, attributes, children⟩, models, h => by
    unfold blockModel at h
    unfold blockLanguages
    split at h
    · obtain rfl := Except.ok.inj h; rfl
    · obtain rfl := Except.ok.inj h; rfl
    · obtain rfl := Except.ok.inj h; rfl
    · split at h
      · simp at h
      · rename_i element hattribute
        obtain rfl := Except.ok.inj h
        simp only [hattribute]
        rfl
    · obtain rfl := Except.ok.inj h; rfl
    -- What is left has children, whose models have their languages.
    all_goals first
      | obtain ⟨blocks, hblocks, rfl⟩ := map_eq_ok_iff.mp h
        have hchildren := map_language_blockModels children hblocks
        simp only [List.map_singleton, Model.language, language_sideBySide, Model.languages_eq_map,
          alternation, ← hchildren, List.isEmpty_map]
      | simp at h

theorem map_language_blockModels : ∀ (trees : List Tree) {models : List Model},
    blockModels trees = .ok models → models.map Model.language = languages trees
  | [], models, h => by
    obtain rfl := Except.ok.inj h
    rfl
  | tree :: rest, models, h => by
    rw [blockModels] at h
    obtain ⟨first, hfirst, h⟩ := bind_eq_ok_iff.mp h
    obtain ⟨others, hothers, h⟩ := bind_eq_ok_iff.mp h
    obtain rfl := Except.ok.inj h
    rw [List.map_append, map_language_blockModel tree hfirst, map_language_blockModels rest hothers,
      languages]

end

theorem interleaves_sideBySide (models : List Model) :
    (sideBySide models).interleaves = Model.interleavesAll models := by
  unfold sideBySide
  split
  · rw [Model.interleavesAll, Model.interleavesAll, List.append_nil]
  · rw [Model.interleaves]

mutual

/-- The models of a node have its interleaves. -/
theorem interleaves_blockModel : ∀ (tree : Tree) {models : List Model},
    blockModel tree = .ok models → Model.interleavesAll models = interleaves tree
  | ⟨name, attributes, children⟩, models, h => by
    unfold blockModel at h
    unfold interleaves
    split at h
    · obtain rfl := Except.ok.inj h; rfl
    · obtain rfl := Except.ok.inj h; rfl
    · obtain rfl := Except.ok.inj h; rfl
    · split at h
      · simp at h
      · obtain rfl := Except.ok.inj h
        rfl
    · obtain rfl := Except.ok.inj h; rfl
    -- What is left has children, whose models have their interleaves.
    all_goals first
      | obtain ⟨blocks, hblocks, rfl⟩ := map_eq_ok_iff.mp h
        have hchildren := interleaves_blockModels children hblocks
        have hlanguages := map_language_blockModels children hblocks
        simp only [Model.interleavesAll, Model.interleaves, interleaves_sideBySide,
          Model.languages_eq_map, hchildren, hlanguages, List.append_nil]
      | simp at h

theorem interleaves_blockModels : ∀ (trees : List Tree) {models : List Model},
    blockModels trees = .ok models → Model.interleavesAll models = interleavesAll trees
  | [], models, h => by
    obtain rfl := Except.ok.inj h
    rfl
  | tree :: rest, models, h => by
    rw [blockModels] at h
    obtain ⟨first, hfirst, h⟩ := bind_eq_ok_iff.mp h
    obtain ⟨others, hothers, h⟩ := bind_eq_ok_iff.mp h
    obtain rfl := Except.ok.inj h
    rw [Model.interleavesAll_append, interleaves_blockModel tree hfirst,
      interleaves_blockModels rest hothers, interleavesAll]

end

/-- **A content model has the language of its blocks.** -/
theorem language_of_contentModel {trees : List Tree} {model : Model}
    (h : contentModel trees = .ok model) : model.language = sequenceLanguage trees := by
  obtain ⟨models, hmodels, rfl⟩ := map_eq_ok_iff.mp h
  rw [language_sideBySide, map_language_blockModels trees hmodels]
  rfl

theorem interleaves_of_contentModel {trees : List Tree} {model : Model}
    (h : contentModel trees = .ok model) : model.interleaves = interleavesAll trees := by
  obtain ⟨models, hmodels, rfl⟩ := map_eq_ok_iff.mp h
  rw [interleaves_sideBySide, interleaves_blockModels trees hmodels]

end RelaxSchema.Tree
