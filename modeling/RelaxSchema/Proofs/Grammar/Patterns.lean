import RelaxSchema.Grammar.NormalForm
import RelaxSchema.Proofs.Content.Language

/-!
# Patterns and what they match

The core of the grammar language: patterns made of references, text, groups, choices and
repetitions. `Tree.Matches` says which lists of tokens some patterns match, with the references of a
grammar looked up and without any of the steps of its compilation.

`Tree.words` are these lists as a language. One equation for each kind of node (`words_group`,
`words_choice` and so on) turns questions about patterns into ones about languages; the steps of the
compilation are compared through them.
-/

namespace RelaxSchema.Tree

open Computability

/-- A pattern over atoms of a name. Atoms are references in a grammar, and elements once these are
expanded. Where `text` is false no text may stand: text stands in an element, in a group, or beside
other alternatives of a choice. -/
inductive Pattern (atom : String) : Bool → Tree → Prop
  /-- An atom. -/
  | atom {text : Bool} {tree : Tree} : tree.name = atom →
      (∀ child ∈ tree.children, Pattern atom false child) → Pattern atom text tree
  /-- Character data. -/
  | text {tree : Tree} : tree.name = "text" → tree.children = [] → Pattern atom true tree
  /-- Patterns one after the other. -/
  | group {text : Bool} {tree : Tree} : tree.name = "group" → tree.children ≠ [] →
      (∀ child ∈ tree.children, Pattern atom true child) → Pattern atom text tree
  /-- One of some patterns. -/
  | choice {text : Bool} {tree : Tree} : tree.name = "choice" → tree.children ≠ [] →
      (∀ child ∈ tree.children, Pattern atom (decide (2 ≤ tree.children.length)) child) →
      Pattern atom text tree
  /-- Patterns that are optional or repeated. -/
  | repetition {text : Bool} {tree : Tree} : NormalForm.isRepetition tree.name = true →
      tree.children ≠ [] → (∀ child ∈ tree.children, Pattern atom false child) →
        Pattern atom text tree

/-- A definition of the core: it holds an element of its own name, whose content consists of
patterns, or else one pattern. -/
inductive IsDefinition (name : String) (tree : Tree) : Prop
  /-- The definition of an element. -/
  | element {element : Tree} : tree.children = [element] → element.name = "element" →
      element.attribute? "name" = some name →
        (∀ child ∈ element.children, Pattern "ref" true child) → IsDefinition name tree
  /-- The definition of a pattern. -/
  | pattern {body : Tree} : tree.children = [body] → Pattern "ref" false body →
      IsDefinition name tree

/-- The definition of a name in a grammar. -/
def define? (grammar : Tree) (name : String) : Option Tree :=
  grammar.children.find? fun child => child.name = "define" && child.attribute? "name" = some name

/-- `Matches grammar trees tokens` says that the tokens are what some patterns, one after the other,
stand for. -/
inductive Matches (grammar : Tree) : List Tree → List String → Prop
  /-- No pattern stands for no token. -/
  | nil : Matches grammar [] []
  /-- The first of several patterns stands for the first tokens. -/
  | cons {tree next : Tree} {rest : List Tree} {first others : List String} :
      Matches grammar [tree] first → Matches grammar (next :: rest) others →
      Matches grammar (tree :: next :: rest) (first ++ others)
  /-- Text is a token of its own. -/
  | text {tree : Tree} : tree.name = "text" → Matches grammar [tree] [textToken]
  /-- An element is read as its name. -/
  | element {tree : Tree} {name : String} : tree.name = "element" →
      tree.attribute? "name" = some name → Matches grammar [tree] [name]
  /-- A reference stands for what its definition holds. -/
  | ref {tree definition : Tree} {name : String} {tokens : List String} : tree.name = "ref" →
      tree.attribute? "name" = some name → grammar.define? name = some definition →
      Matches grammar definition.children tokens → Matches grammar [tree] tokens
  /-- A group stands for its children in their order. -/
  | group {tree : Tree} {tokens : List String} : tree.name = "group" →
      Matches grammar tree.children tokens → Matches grammar [tree] tokens
  /-- A choice stands for one of its children. -/
  | choice {tree child : Tree} {tokens : List String} : tree.name = "choice" →
      child ∈ tree.children → Matches grammar [child] tokens → Matches grammar [tree] tokens
  /-- What is optional may be absent. -/
  | absent {tree : Tree} : tree.name = "optional" → Matches grammar [tree] []
  /-- What is optional may be there. -/
  | present {tree : Tree} {tokens : List String} : tree.name = "optional" →
      Matches grammar tree.children tokens → Matches grammar [tree] tokens
  /-- A repetition is one for each part of the tokens. -/
  | zeroOrMore {tree : Tree} {parts : List (List String)} : tree.name = "zeroOrMore" →
      (∀ part ∈ parts, Matches grammar tree.children part) → Matches grammar [tree] parts.flatten
  /-- A repetition of what is needed has a first part. -/
  | oneOrMore {tree : Tree} {first : List String} {parts : List (List String)} :
      tree.name = "oneOrMore" → Matches grammar tree.children first →
      (∀ part ∈ parts, Matches grammar tree.children part) →
      Matches grammar [tree] (first ++ parts.flatten)

/-- The lists of tokens that some patterns stand for. -/
def words (grammar : Tree) (trees : List Tree) : Language String :=
  {tokens | Matches grammar trees tokens}

/-! ### One equation for each kind of node -/

section Words

variable {grammar : Tree}

/-- What a single pattern stands for is decided by its name. -/
theorem matches_singleton {tree : Tree} {tokens : List String} (h : Matches grammar [tree] tokens) :
    (tree.name = "text" ∧ tokens = [textToken]) ∨
    (tree.name = "element" ∧ ∃ name, tree.attribute? "name" = some name ∧ tokens = [name]) ∨
    (tree.name = "ref" ∧ ∃ name definition, tree.attribute? "name" = some name ∧
      grammar.define? name = some definition ∧ Matches grammar definition.children tokens) ∨
    (tree.name = "group" ∧ Matches grammar tree.children tokens) ∨
    (tree.name = "choice" ∧ ∃ child ∈ tree.children, Matches grammar [child] tokens) ∨
    (tree.name = "optional" ∧ (tokens = [] ∨ Matches grammar tree.children tokens)) ∨
    (tree.name = "zeroOrMore" ∧ ∃ parts : List (List String), tokens = parts.flatten ∧
      ∀ part ∈ parts, Matches grammar tree.children part) ∨
    (tree.name = "oneOrMore" ∧ ∃ first, ∃ parts : List (List String),
      tokens = first ++ parts.flatten ∧
      Matches grammar tree.children first ∧ ∀ part ∈ parts,
        Matches grammar tree.children part) := by
  cases h with
  | text hname => exact Or.inl ⟨hname, rfl⟩
  | element hname hattribute => exact Or.inr (Or.inl ⟨hname, _, hattribute, rfl⟩)
  | ref hname hattribute hdefine hbody => simp [hname, hattribute, hdefine, hbody]
  | group hname hchildren => simp [hname, hchildren]
  | choice hname hchild htokens => simpa [hname] using ⟨_, hchild, htokens⟩
  | absent hname => simp [hname]
  | present hname hchildren => simp [hname, hchildren]
  | zeroOrMore hname hparts => simpa [hname] using ⟨_, rfl, hparts⟩
  | oneOrMore hname hfirst hparts => simpa [hname] using ⟨_, _, rfl, hfirst, hparts⟩

theorem words_nil : words grammar [] = 1 := by
  refine Language.ext fun tokens => ?_
  rw [Language.mem_one]
  constructor
  · rintro ⟨⟩
    rfl
  · rintro rfl
    exact .nil

theorem words_cons (tree : Tree) (rest : List Tree) :
    words grammar (tree :: rest) = words grammar [tree] * words grammar rest := by
  cases rest with
  | nil => rw [words_nil, mul_one]
  | cons next rest =>
    refine Language.ext fun tokens => ?_
    rw [Language.mem_mul]
    constructor
    · rintro (_ | ⟨hfirst, hothers⟩)
      exact ⟨_, hfirst, _, hothers, rfl⟩
    · rintro ⟨first, hfirst, others, hothers, rfl⟩
      exact .cons hfirst hothers

theorem words_eq_prod (trees : List Tree) :
    words grammar trees = (trees.map fun tree => words grammar [tree]).prod := by
  induction trees with
  | nil => exact words_nil
  | cons tree rest ih => rw [words_cons, ih, List.map_cons, List.prod_cons]

variable {tree : Tree}

theorem words_text (h : tree.name = "text") : words grammar [tree] = {[textToken]} := by
  refine Language.ext fun tokens => ⟨fun htokens => ?_, ?_⟩
  · have hcases := matches_singleton htokens
    simp only [h, String.reduceEq, false_and, or_false, true_and] at hcases
    exact hcases
  · rintro rfl
    exact .text h

theorem words_element (h : tree.name = "element") {name : String}
    (hname : tree.attribute? "name" = some name) : words grammar [tree] = {[name]} := by
  refine Language.ext fun tokens => ⟨fun htokens => ?_, ?_⟩
  · have hcases := matches_singleton htokens
    simp only [h, String.reduceEq, false_and, or_false, false_or, true_and, hname] at hcases
    obtain ⟨_, heq, rfl⟩ := hcases
    obtain rfl := Option.some.inj heq
    rfl
  · rintro rfl
    exact .element h hname

/-- What an element holds does not matter. -/
theorem words_congr_element {tree' : Tree} (h : tree.name = "element") (h' : tree'.name = "element")
    (hattributes : tree'.attributes = tree.attributes) :
    words grammar [tree'] = words grammar [tree] := by
  have hsub : ∀ {first second : Tree}, first.name = "element" → second.name = "element" →
      second.attributes = first.attributes → ∀ tokens ∈ words grammar [first],
        tokens ∈ words grammar [second] := by
    intro first second hfirst hsecond hsame tokens htokens
    have hcases := matches_singleton htokens
    simp only [hfirst, String.reduceEq, false_and, or_false, false_or, true_and] at hcases
    obtain ⟨name, hname, rfl⟩ := hcases
    exact .element hsecond (by rw [attribute?, hsame]; exact hname)
  exact Language.ext fun tokens =>
    ⟨hsub h' h hattributes.symm tokens, hsub h h' hattributes tokens⟩

theorem words_ref (h : tree.name = "ref") {name : String} {definition : Tree}
    (hname : tree.attribute? "name" = some name)
    (hdefine : grammar.define? name = some definition) :
    words grammar [tree] = words grammar definition.children := by
  refine Language.ext fun tokens => ⟨fun htokens => ?_, fun hbody => .ref h hname hdefine hbody⟩
  have hcases := matches_singleton htokens
  simp only [h, String.reduceEq, false_and, or_false, false_or, true_and, hname] at hcases
  obtain ⟨_, _, heq, hdefine', hbody⟩ := hcases
  obtain rfl := Option.some.inj heq
  obtain rfl := Option.some.inj (hdefine.symm.trans hdefine')
  exact hbody

theorem words_group (h : tree.name = "group") :
    words grammar [tree] = words grammar tree.children := by
  refine Language.ext fun tokens => ⟨fun htokens => ?_, fun hchildren => .group h hchildren⟩
  have hcases := matches_singleton htokens
  simp only [h, String.reduceEq, false_and, or_false, false_or, true_and] at hcases
  exact hcases

theorem words_choice (h : tree.name = "choice") :
    words grammar [tree] = (tree.children.map fun child => words grammar [child]).sum := by
  refine Language.ext fun tokens => ?_
  rw [mem_sum_iff]
  constructor
  · intro htokens
    have hcases := matches_singleton htokens
    simp only [h, String.reduceEq, false_and, or_false, false_or, true_and] at hcases
    obtain ⟨child, hchild, htokens⟩ := hcases
    exact ⟨_, List.mem_map.mpr ⟨child, hchild, rfl⟩, htokens⟩
  · rintro ⟨language, hmem, htokens⟩
    obtain ⟨child, hchild, rfl⟩ := List.mem_map.mp hmem
    exact .choice h hchild htokens

theorem words_optional (h : tree.name = "optional") :
    words grammar [tree] = words grammar tree.children + 1 := by
  refine Language.ext fun tokens => ?_
  rw [Language.mem_add, Language.mem_one]
  constructor
  · intro htokens
    have hcases := matches_singleton htokens
    simp only [h, String.reduceEq, false_and, or_false, false_or, true_and] at hcases
    exact hcases.symm
  · rintro (htokens | rfl)
    · exact .present h htokens
    · exact .absent h

theorem words_zeroOrMore (h : tree.name = "zeroOrMore") :
    words grammar [tree] = (words grammar tree.children)∗ := by
  refine Language.ext fun tokens => ?_
  rw [Language.mem_kstar]
  constructor
  · intro htokens
    have hcases := matches_singleton htokens
    simp only [h, String.reduceEq, false_and, or_false, false_or, true_and] at hcases
    exact hcases
  · rintro ⟨parts, rfl, hparts⟩
    exact .zeroOrMore h hparts

theorem words_oneOrMore (h : tree.name = "oneOrMore") :
    words grammar [tree] = words grammar tree.children * (words grammar tree.children)∗ := by
  refine Language.ext fun tokens => ?_
  rw [Language.mem_mul]
  constructor
  · intro htokens
    have hcases := matches_singleton htokens
    simp only [h, String.reduceEq, false_and, false_or, true_and] at hcases
    obtain ⟨first, parts, rfl, hfirst, hparts⟩ := hcases
    exact ⟨first, hfirst, _, Language.mem_kstar.mpr ⟨parts, rfl, hparts⟩, rfl⟩
  · rintro ⟨first, hfirst, others, hothers, rfl⟩
    obtain ⟨parts, rfl, hparts⟩ := Language.mem_kstar.mp hothers
    exact .oneOrMore h hfirst hparts

/-- Nodes that stand for what their children stand for. -/
def IsComposite (name : String) : Prop :=
  name = "group" ∨ name = "choice" ∨ NormalForm.isRepetition name = true

theorem isRepetition_iff {name : String} : NormalForm.isRepetition name = true ↔
    name = "optional" ∨ name = "zeroOrMore" ∨ name = "oneOrMore" := by
  rw [NormalForm.isRepetition, NormalForm.isSkippable]
  simp [or_assoc]

theorem isComposite_iff {name : String} : IsComposite name ↔ name = "group" ∨ name = "choice" ∨
    name = "optional" ∨ name = "zeroOrMore" ∨ name = "oneOrMore" := by
  rw [IsComposite, isRepetition_iff]

theorem not_isComposite_text : ¬ IsComposite "text" := by
  simp [isComposite_iff]

theorem not_isComposite_element : ¬ IsComposite "element" := by
  simp [isComposite_iff]

/-- Changed children stand for the same if each does. -/
theorem map_words_congr {trees trees' : List Tree}
    (h : List.Forall₂ (fun tree tree' => words grammar [tree'] = words grammar [tree])
      trees trees') :
    (trees'.map fun tree => words grammar [tree]) = trees.map fun tree => words grammar [tree] := by
  induction h with
  | nil => rfl
  | cons hfirst _ ih => rw [List.map_cons, List.map_cons, hfirst, ih]

theorem words_congr {trees trees' : List Tree}
    (h : List.Forall₂ (fun tree tree' => words grammar [tree'] = words grammar [tree])
      trees trees') :
    words grammar trees' = words grammar trees := by
  rw [words_eq_prod, words_eq_prod trees, map_words_congr h]

/-- A composite node stands for the same if each child does. -/
theorem words_congr_children {tree tree' : Tree} (hname : tree'.name = tree.name)
    (hcomposite : IsComposite tree.name) (h : List.Forall₂ (fun child child' =>
      words grammar [child'] = words grammar [child]) tree.children tree'.children) :
    words grammar [tree'] = words grammar [tree] := by
  rcases hcomposite with hgroup | hchoice | hrepetition
  · rw [words_group hgroup, words_group (hname.trans hgroup), words_congr h]
  · rw [words_choice hchoice, words_choice (hname.trans hchoice), map_words_congr h]
  · rcases isRepetition_iff.mp hrepetition with hoptional | hzeroOrMore | honeOrMore
    · rw [words_optional hoptional, words_optional (hname.trans hoptional), words_congr h]
    · rw [words_zeroOrMore hzeroOrMore, words_zeroOrMore (hname.trans hzeroOrMore), words_congr h]
    · rw [words_oneOrMore honeOrMore, words_oneOrMore (hname.trans honeOrMore), words_congr h]

end Words

/-! ### Patterns -/

theorem forall_mem_preorder {P : Tree → Prop} (htree : P tree)
    (hchildren : ∀ child ∈ tree.children, ∀ node ∈ child.preorder, P node) :
    ∀ node ∈ tree.preorder, P node := by
  intro node hnode
  rw [preorder_eq, List.mem_cons, descendants, preorderAll_eq_flatMap, List.mem_flatMap] at hnode
  rcases hnode with rfl | ⟨child, hchild, hnode⟩
  · exact htree
  · exact hchildren child hchild node hnode

namespace Pattern

variable {atom : String} {text : Bool} {tree : Tree}

/-- What may stand anywhere may stand beside text. -/
theorem weaken (h : Pattern atom false tree) : Pattern atom text tree := by
  cases h with
  | atom hname hchildren => exact .atom hname hchildren
  | group hname hne hchildren => exact .group hname hne hchildren
  | choice hname hne hchildren => exact .choice hname hne hchildren
  | repetition hname hne hchildren => exact .repetition hname hne hchildren

/-- With more alternatives text may stand as well. -/
theorem mono {few many : Nat} (h : Pattern atom (decide (2 ≤ few)) tree) (hle : few ≤ many) :
    Pattern atom (decide (2 ≤ many)) tree := by
  by_cases hfew : 2 ≤ few
  · rwa [decide_eq_true (hfew.trans hle), ← decide_eq_true hfew]
  · rw [decide_eq_false hfew] at h
    exact h.weaken

/-- A composite node holds something. -/
theorem children_ne_nil (h : Pattern "element" text tree) (hcomposite : IsComposite tree.name) :
    tree.children ≠ [] := by
  cases h with
  | atom hname _ => exact absurd (hname ▸ hcomposite) not_isComposite_element
  | text hname _ => exact absurd (hname ▸ hcomposite) not_isComposite_text
  | group _ hne _ => exact hne
  | choice _ hne _ => exact hne
  | repetition _ hne _ => exact hne

theorem exists_children (h : Pattern atom text tree) :
    ∃ flag, ∀ child ∈ tree.children, Pattern atom flag child := by
  cases h with
  | atom _ hchildren => exact ⟨false, hchildren⟩
  | text _ hchildren => exact ⟨true, by simp [hchildren]⟩
  | group _ _ hchildren => exact ⟨true, hchildren⟩
  | choice _ _ hchildren => exact ⟨_, hchildren⟩
  | repetition _ _ hchildren => exact ⟨false, hchildren⟩

/-- What may stand in a choice. -/
theorem of_choice (h : Pattern "element" text tree) (hname : tree.name = "choice") :
    ∀ child ∈ tree.children, Pattern "element" (decide (2 ≤ tree.children.length)) child := by
  cases h with
  | atom hname' _ => simp [hname] at hname'
  | text hname' _ => simp [hname] at hname'
  | group hname' _ _ => simp [hname] at hname'
  | choice _ _ hchildren => exact hchildren
  | repetition hname' _ _ => simp [hname, isRepetition_iff] at hname'

/-- What may stand in a repetition. -/
theorem of_repetition (h : Pattern "element" text tree)
    (hname : NormalForm.isRepetition tree.name = true) :
    ∀ child ∈ tree.children, Pattern "element" false child := by
  cases h with
  | atom hname' _ => exact absurd (hname' ▸ Or.inr (Or.inr hname)) not_isComposite_element
  | text hname' _ => exact absurd (hname' ▸ Or.inr (Or.inr hname)) not_isComposite_text
  | group hname' _ _ => simp [hname', isRepetition_iff] at hname
  | choice hname' _ _ => simp [hname', isRepetition_iff] at hname
  | repetition _ _ hchildren => exact hchildren

/-- No text stands where none may stand. -/
theorem name_ne_text (h : Pattern "element" false tree) : tree.name ≠ "text" := by
  intro htext
  cases h with
  | atom hname _ => simp [hname] at htext
  | group hname _ _ => simp [hname] at htext
  | choice hname _ _ => simp [hname] at htext
  | repetition hname _ _ => exact not_isComposite_text (htext ▸ Or.inr (Or.inr hname))

/-- The names of the nodes of a pattern. -/
theorem name_of_mem_preorder (h : Pattern atom text tree) :
    ∀ node ∈ tree.preorder, node.name = atom ∨ node.name = "text" ∨ IsComposite node.name := by
  induction h with
  | atom hname _ ih => exact forall_mem_preorder (Or.inl hname) ih
  | text hname hchildren =>
    refine forall_mem_preorder (Or.inr (Or.inl hname)) fun child hchild => ?_
    rw [hchildren] at hchild
    exact absurd hchild List.not_mem_nil
  | group hname _ _ ih => exact forall_mem_preorder (Or.inr (Or.inr (Or.inl hname))) ih
  | choice hname _ _ ih => exact forall_mem_preorder (Or.inr (Or.inr (Or.inr (Or.inl hname)))) ih
  | repetition hname _ _ ih =>
    exact forall_mem_preorder (Or.inr (Or.inr (Or.inr (Or.inr hname)))) ih

end Pattern

/-! ### Forms of a pattern -/

/-- A form of a tree is a pattern over elements that stands for the same. -/
def IsForm (grammar : Tree) (text : Bool) (tree form : Tree) : Prop :=
  Pattern "element" text form ∧ words grammar [form] = words grammar [tree]

namespace IsForm

variable {grammar : Tree} {text : Bool}

theorem trans {tree form form' : Tree} (h : IsForm grammar text tree form)
    (h' : IsForm grammar text form form') : IsForm grammar text tree form' :=
  ⟨h'.1, h'.2.trans h.2⟩

theorem forall_pattern {trees forms : List Tree}
    (h : List.Forall₂ (IsForm grammar text) trees forms) :
    ∀ form ∈ forms, Pattern "element" text form := by
  intro form hform
  obtain ⟨_, -, hpattern, -⟩ := exists_right_of_forall₂ h.flip hform
  exact hpattern

theorem ne_nil {trees forms : List Tree} (h : List.Forall₂ (IsForm grammar text) trees forms)
    (hne : trees ≠ []) : forms ≠ [] := by
  rintro rfl
  exact hne (List.forall₂_nil_right_iff.mp h)

theorem words_eq {trees forms : List Tree} (h : List.Forall₂ (IsForm grammar text) trees forms) :
    words grammar forms = words grammar trees :=
  words_congr (h.imp fun _ _ hform => hform.2)

variable {tree : Tree} {children : List Tree}

theorem group (hname : tree.name = "group") (hne : tree.children ≠ [])
    (h : List.Forall₂ (IsForm grammar true) tree.children children) :
    IsForm grammar text tree ⟨tree.name, tree.attributes, children⟩ :=
  ⟨.group hname (ne_nil h hne) (forall_pattern h),
    words_congr_children rfl (Or.inl hname) (h.imp fun _ _ hform => hform.2)⟩

theorem choice (hname : tree.name = "choice") (hne : tree.children ≠ [])
    (h : List.Forall₂ (IsForm grammar (decide (2 ≤ tree.children.length))) tree.children children) :
    IsForm grammar text tree ⟨tree.name, tree.attributes, children⟩ := by
  have hpattern := forall_pattern h
  rw [h.length_eq] at hpattern
  exact ⟨.choice hname (ne_nil h hne) hpattern,
    words_congr_children rfl (Or.inr (Or.inl hname)) (h.imp fun _ _ hform => hform.2)⟩

theorem repetition (hname : NormalForm.isRepetition tree.name = true) (hne : tree.children ≠ [])
    (h : List.Forall₂ (IsForm grammar false) tree.children children) :
    IsForm grammar text tree ⟨tree.name, tree.attributes, children⟩ :=
  ⟨.repetition hname (ne_nil h hne) (forall_pattern h),
    words_congr_children rfl (Or.inr (Or.inr hname)) (h.imp fun _ _ hform => hform.2)⟩

end IsForm

end RelaxSchema.Tree
