import RelaxSchema.Grammar.Definitions
import RelaxSchema.Proofs.Grammar.Patterns

/-!
# Core grammars

A core grammar has one start and definitions of distinct names, each of which holds an element of
its own name or a pattern.

* `Tree.define?_eq_some_iff`: a name has no other definition than the one that is looked up;
* `Tree.IsCore.name_mem_coreNames`: what the nodes of a core grammar are named, so that the marks
  and declarations which the flattening of a grammar looks for are not there.
-/

namespace RelaxSchema.Tree

open Definitions

/-- A start that refers to one name. -/
def IsStart (start : String) (tree : Tree) : Prop :=
  tree.name = "start" ∧ ∃ reference, tree.children = [reference] ∧ reference.name = "ref" ∧
    reference.attribute? "name" = some start ∧ Pattern "ref" false reference

/-- A definition of some name. -/
def IsNamedDefinition (tree : Tree) : Prop :=
  tree.name = "define" ∧ ∃ name, tree.attribute? "name" = some name ∧ IsDefinition name tree

/-- The names of the definitions among some trees. -/
def definedNames (trees : List Tree) : List (Option String) :=
  (trees.filter isDefine).map fun tree => tree.attribute? "name"

theorem definedNames_append (before after : List Tree) :
    definedNames (before ++ after) = definedNames before ++ definedNames after := by
  rw [definedNames, List.filter_append, List.map_append]
  rfl

theorem definedNames_cons_of_isDefine {tree : Tree} (h : isDefine tree = true) (rest : List Tree) :
    definedNames (tree :: rest) = tree.attribute? "name" :: definedNames rest := by
  rw [definedNames, List.filter_cons_of_pos h, List.map_cons]
  rfl

theorem definedNames_cons_of_not_isDefine {tree : Tree} (h : isDefine tree = false)
    (rest : List Tree) : definedNames (tree :: rest) = definedNames rest := by
  rw [definedNames, List.filter_cons_of_neg (Bool.not_eq_true _ ▸ h)]
  rfl

theorem length_definedNames (trees : List Tree) :
    (definedNames trees).length = (trees.filter isDefine).length :=
  List.length_map _

/-- The element that a definition holds. -/
def element? (definition : Tree) : Option Tree :=
  definition.children.find? fun child => child.name = "element"

/-- The content of the element that a name is defined as. -/
def content? (grammar : Tree) (name : String) : Option (List Tree) :=
  ((grammar.define? name).bind element?).map Tree.children

/-- A grammar of the core with the name that its start refers to. -/
structure IsCore (grammar : Tree) (start : String) : Prop where
  /-- The root is a grammar element. -/
  name_eq : grammar.name = "grammar"
  /-- There is one start among definitions. -/
  exists_start : ∃ before node after, grammar.children = before ++ node :: after ∧
    IsStart start node ∧ ∀ tree ∈ before ++ after, IsNamedDefinition tree
  /-- No name is defined twice. -/
  nodup : (definedNames grammar.children).Nodup
  /-- The start is an element. -/
  isSome_start : (grammar.content? start).isSome = true

/-! ### Definitions of a name -/

theorem isDefine_iff {tree : Tree} : isDefine tree = true ↔ tree.name = "define" :=
  decide_eq_true_iff

/-- A name that is defined once has no other definition than the one that is looked up. -/
theorem define?_eq_some_iff {grammar : Tree} (hnodup : (definedNames grammar.children).Nodup)
    {name : String} {definition : Tree} : grammar.define? name = some definition ↔
      definition ∈ grammar.children ∧ definition.name = "define" ∧
        definition.attribute? "name" = some name := by
  constructor
  · intro h
    have hnames := List.find?_some h
    rw [Bool.and_eq_true, decide_eq_true_iff, decide_eq_true_iff] at hnames
    exact ⟨List.mem_of_find?_eq_some h, hnames⟩
  · rintro ⟨hmem, hdefine, hname⟩
    obtain ⟨found, hfound⟩ : ∃ found, grammar.define? name = some found := by
      rw [← Option.isSome_iff_exists, define?, List.find?_isSome]
      exact ⟨definition, hmem, by simp [hdefine, hname]⟩
    have hnames := List.find?_some hfound
    rw [Bool.and_eq_true, decide_eq_true_iff, decide_eq_true_iff] at hnames
    have hsame := List.inj_on_of_nodup_map hnodup
      (List.mem_filter.mpr ⟨List.mem_of_find?_eq_some hfound, isDefine_iff.mpr hnames.1⟩)
      (List.mem_filter.mpr ⟨hmem, isDefine_iff.mpr hdefine⟩) (hnames.2.trans hname.symm)
    rw [hfound, hsame]

theorem IsDefinition.element?_eq_some_iff {name : String} {definition element : Tree}
    (h : IsDefinition name definition) : definition.element? = some element ↔
      definition.children = [element] ∧ element.name = "element" := by
  rw [element?]
  constructor
  · intro hfound
    have hname : element.name = "element" := of_decide_eq_true (List.find?_some hfound :)
    have hmem := List.mem_of_find?_eq_some hfound
    cases h with
    | element hchildren _ _ _ | pattern hchildren _ =>
      rw [hchildren, List.mem_singleton] at hmem
      exact ⟨hmem ▸ hchildren, hname⟩
  · rintro ⟨hchildren, hname⟩
    rw [hchildren, List.find?_singleton, if_pos (decide_eq_true hname)]

/-- An element that is a definition of the core has its name, and patterns in it. -/
theorem IsDefinition.of_element? {name : String} {definition element : Tree}
    (h : IsDefinition name definition) (helement : definition.element? = some element) :
    element.attribute? "name" = some name ∧ ∀ child ∈ element.children,
      Pattern "ref" true child := by
  obtain ⟨hchildren, hname⟩ := h.element?_eq_some_iff.mp helement
  cases h with
  | element hchildren' _ hattribute hcontent =>
    obtain rfl := List.singleton_inj.mp (hchildren.symm.trans hchildren')
    exact ⟨hattribute, hcontent⟩
  | pattern hchildren' hpattern =>
    obtain rfl := List.singleton_inj.mp (hchildren.symm.trans hchildren')
    -- No pattern over references is an element.
    rcases hpattern.name_of_mem_preorder element (self_mem_preorder element) with
      href | htext | hcomposite
    · simp [hname] at href
    · simp [hname] at htext
    · exact absurd (hname ▸ hcomposite) not_isComposite_element

theorem content?_eq_some_iff {grammar : Tree} {name : String} {content : List Tree} :
    grammar.content? name = some content ↔
      ∃ definition element, grammar.define? name = some definition ∧
        definition.element? = some element ∧ element.children = content := by
  rw [content?, Option.map_eq_some_iff]
  constructor
  · rintro ⟨element, helement, hchildren⟩
    obtain ⟨definition, hdefinition, helement⟩ := Option.bind_eq_some_iff.mp helement
    exact ⟨definition, element, hdefinition, helement, hchildren⟩
  · rintro ⟨definition, element, hdefinition, helement, hchildren⟩
    exact ⟨element, Option.bind_eq_some_iff.mpr ⟨definition, hdefinition, helement⟩, hchildren⟩

/-! ### Names of nodes -/

/-- The names of the nodes below a start or a definition. -/
def patternNames : List String :=
  ["element", "ref", "text", "group", "choice", "optional", "zeroOrMore", "oneOrMore"]

/-- The names of the nodes below a core grammar. -/
def coreNames : List String := "start" :: "define" :: patternNames

theorem Pattern.name_mem_patternNames {text : Bool} {tree : Tree} (h : Pattern "ref" text tree) :
    ∀ node ∈ tree.preorder, node.name ∈ patternNames := by
  intro node hnode
  have hnames := h.name_of_mem_preorder node hnode
  rw [isComposite_iff] at hnames
  simp only [patternNames, List.mem_cons, List.not_mem_nil, or_false]
  tauto

/-- The nodes below a tree have names of patterns. -/
def IsPlainBelow (tree : Tree) : Prop := ∀ node ∈ tree.descendants, node.name ∈ patternNames

theorem IsPlainBelow.name_ne {tree : Tree} (h : IsPlainBelow tree) {name : String}
    (hname : name ∉ patternNames) : ∀ node ∈ tree.descendants, node.name ≠ name := by
  rintro node hnode rfl
  exact hname (h node hnode)

theorem IsStart.isPlainBelow {start : String} {tree : Tree} (h : IsStart start tree) :
    IsPlainBelow tree := by
  obtain ⟨-, reference, hchildren, -, -, hpattern⟩ := h
  intro node hnode
  rw [descendants, hchildren, mem_preorderAll_singleton] at hnode
  exact hpattern.name_mem_patternNames node hnode

theorem IsNamedDefinition.isPlainBelow {tree : Tree} (h : IsNamedDefinition tree) :
    IsPlainBelow tree := by
  obtain ⟨-, name, -, hdefinition⟩ := h
  intro node hnode
  cases hdefinition with
  | element hchildren hname _ hcontent =>
    rw [descendants, hchildren, mem_preorderAll_singleton, preorder_eq, List.mem_cons, descendants,
      mem_preorderAll] at hnode
    rcases hnode with rfl | ⟨child, hchild, hnode⟩
    · simp [hname, patternNames]
    · exact (hcontent child hchild).name_mem_patternNames node hnode
  | pattern hchildren hpattern =>
    rw [descendants, hchildren, mem_preorderAll_singleton] at hnode
    exact hpattern.name_mem_patternNames node hnode

namespace IsCore

variable {grammar : Tree} {start : String}

theorem isStart_or_isNamedDefinition (h : IsCore grammar start) :
    ∀ tree ∈ grammar.children, IsStart start tree ∨ IsNamedDefinition tree := by
  obtain ⟨before, node, after, hchildren, hstart, hdefines⟩ := h.exists_start
  intro tree htree
  rw [hchildren, List.mem_append, List.mem_cons] at htree
  rcases htree with hbefore | rfl | hafter
  · exact Or.inr (hdefines tree (List.mem_append_left _ hbefore))
  · exact Or.inl hstart
  · exact Or.inr (hdefines tree (List.mem_append_right _ hafter))

theorem isNamedDefinition_of_mem (h : IsCore grammar start) :
    ∀ tree ∈ grammar.children, isDefine tree = true → IsNamedDefinition tree := by
  intro tree htree hdefine
  rcases h.isStart_or_isNamedDefinition tree htree with hstart | hcore
  · have hclash := (isDefine_iff.mp hdefine).symm.trans hstart.1
    simp at hclash
  · exact hcore

theorem isPlainBelow (h : IsCore grammar start) : ∀ tree ∈ grammar.children, IsPlainBelow tree := by
  intro tree htree
  rcases h.isStart_or_isNamedDefinition tree htree with hstart | hdefine
  · exact hstart.isPlainBelow
  · exact hdefine.isPlainBelow

theorem isDefinition_of_define? (h : IsCore grammar start) {name : String} {definition : Tree}
    (hdefine : grammar.define? name = some definition) : IsDefinition name definition := by
  obtain ⟨hmem, hname, hattribute⟩ := (define?_eq_some_iff h.nodup).mp hdefine
  obtain ⟨-, _, hattribute', hdefinition⟩ :=
    h.isNamedDefinition_of_mem definition hmem (isDefine_iff.mpr hname)
  obtain rfl := Option.some.inj (hattribute.symm.trans hattribute')
  exact hdefinition

/-- The nodes below a core grammar have names of the core. -/
theorem name_mem_coreNames (h : IsCore grammar start) :
    ∀ node ∈ grammar.descendants, node.name ∈ coreNames := by
  intro node hnode
  rw [descendants, mem_preorderAll] at hnode
  obtain ⟨tree, htree, hnode⟩ := hnode
  rw [preorder_eq, List.mem_cons] at hnode
  rcases hnode with rfl | hnode
  · rcases h.isStart_or_isNamedDefinition node htree with hstart | hdefine
    · simp [hstart.1, coreNames]
    · simp [hdefine.1, coreNames]
  · exact List.mem_cons_of_mem _ (List.mem_cons_of_mem _ (h.isPlainBelow tree htree node hnode))

theorem findAll_eq_nil (h : IsCore grammar start) {marker : String} (hmarker : marker ∉ coreNames) :
    grammar.findAll marker = [] := by
  rw [findAll, List.filter_eq_nil_iff]
  intro node hnode hname
  exact hmarker (of_decide_eq_true hname ▸ h.name_mem_coreNames node hnode)

end IsCore

end RelaxSchema.Tree
