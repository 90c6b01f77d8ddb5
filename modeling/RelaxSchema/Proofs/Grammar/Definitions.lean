import RelaxSchema.Proofs.Grammar.Registration

/-!
# Definitions of a core grammar

* `Definitions.find?_bodies`: a registered body is what the definition of that name holds, also
  after names are removed (`Definitions.ArePlaced.stripRemoved`);
* `Definitions.stripRemoved_eq_self`: nothing goes away where nothing is marked as removed;
* `Definitions.elements_eq_filterMap`: the elements are those that the definitions hold.
-/

namespace RelaxSchema.Definitions

open RelaxSchema.Tree

/-! ### Bodies -/

theorem getElem?_defines {definitions : Definitions} {position : Nat} {name : String}
    (h : (definedNames definitions.children)[position]? = some (some name)) :
    ∃ tree ∈ definitions.children, definitions.defines[position]? = some tree ∧
      tree.name = "define" ∧ tree.attribute? "name" = some name := by
  rw [definedNames, List.getElem?_map, Option.map_eq_some_iff] at h
  obtain ⟨tree, htree, hname⟩ := h
  have hmem := List.mem_filter.mp (List.mem_of_getElem? htree)
  exact ⟨tree, hmem.1, htree, isDefine_iff.mp hmem.2, hname⟩

/-- The body of a name is what the registered definition of that name holds. -/
theorem find?_bodies {definitions : Definitions} (h : definitions.ArePlaced) (name : String) :
    definitions.bodies.find? name = (definitions.find? name).map Tree.children := by
  rw [bodies, Catalogue.find?_map, Definitions.find?]
  cases hposition : definitions.positions.find? name with
  | none => rfl
  | some position =>
    have hdefine := List.getElem?_eq_getElem (h name position hposition)
    rw [Option.map_some, Option.bind_some, hdefine]
    rfl

/-- The body of a registered name is what its definition holds. -/
theorem exists_of_lookup_bodies {definitions : Definitions} (h : definitions.AreRegistered)
    {name : String} {body : List Tree}
    (hbody : definitions.bodies.entries.lookup name = some body) :
    ∃ tree ∈ definitions.children, tree.name = "define" ∧ tree.attribute? "name" = some name ∧
      tree.children = body := by
  have hmem := Catalogue.mem_entries_of_find? hbody
  obtain ⟨⟨_, position⟩, hentry, heq⟩ := List.mem_map.mp hmem
  obtain rfl := (Prod.mk.inj heq).1
  have hchildren : (definitions.defines[position]?.map Tree.children).getD [] = body :=
    (Prod.mk.inj heq).2
  have hposition := (h _ position).mp (Catalogue.find?_of_mem hentry)
  obtain ⟨tree, htree, hfound, hdefine, hname⟩ := getElem?_defines hposition
  rw [hfound] at hchildren
  exact ⟨tree, htree, hdefine, hname, hchildren⟩

/-! ### Removed names -/

theorem name_stripTree (names : List String) (tree : Tree) :
    (stripTree names tree).name = tree.name := by
  cases tree
  rfl

theorem children_stripTree (names : List String) (tree : Tree) :
    (stripTree names tree).children = strip names tree.children := by
  cases tree
  rfl

theorem isDefine_stripTree (names : List String) (tree : Tree) :
    isDefine (stripTree names tree) = isDefine tree := by
  rw [isDefine, isDefine, name_stripTree]

/-- Only elements and references are removed. -/
theorem isRemoved_eq_false {names : List String} {tree : Tree} (helement : tree.name ≠ "element")
    (href : tree.name ≠ "ref") : isRemoved names tree = false := by
  simp [isRemoved, helement, href]

theorem not_isRemoved_of_isDefine {names : List String} {tree : Tree} (h : isDefine tree = true) :
    ¬ isRemoved names tree = true := by
  have hname := isDefine_iff.mp h
  rw [isRemoved_eq_false (by simp [hname]) (by simp [hname])]
  exact Bool.false_ne_true

theorem strip_define {names : List String} {tree : Tree} (h : isDefine tree = true)
    (rest : List Tree) : strip names (tree :: rest) = stripTree names tree :: strip names rest := by
  rw [strip, if_neg (not_isRemoved_of_isDefine h)]

theorem definedNames_strip (names : List String) (trees : List Tree) :
    definedNames (strip names trees) = definedNames trees := by
  induction trees with
  | nil => rfl
  | cons tree rest ih =>
    cases hdefine : isDefine tree with
    | true =>
      have hkept := (isDefine_stripTree names tree).trans hdefine
      rw [strip_define hdefine, definedNames_cons_of_isDefine hkept,
        definedNames_cons_of_isDefine hdefine, ih]
      cases tree
      rfl
    | false =>
      rw [definedNames_cons_of_not_isDefine hdefine, strip]
      split
      · exact ih
      · rw [definedNames_cons_of_not_isDefine ((isDefine_stripTree names tree).trans hdefine), ih]

mutual

theorem stripTree_congr {names names' : List String} (h : ∀ name, name ∈ names' ↔ name ∈ names) :
    ∀ tree : Tree, stripTree names' tree = stripTree names tree
  | ⟨name, attributes, children⟩ => by rw [stripTree, stripTree, strip_congr h children]

/-- It does not matter in which order the names are listed. -/
theorem strip_congr {names names' : List String} (h : ∀ name, name ∈ names' ↔ name ∈ names) :
    ∀ trees : List Tree, strip names' trees = strip names trees
  | [] => rfl
  | tree :: rest => by
    have hremoved : isRemoved names' tree = isRemoved names tree := by
      simp only [isRemoved, List.contains_eq_mem, h]
    rw [strip, strip, hremoved, stripTree_congr h tree, strip_congr h rest]

end

/-- A node without what is below it. -/
def label (tree : Tree) : String × Catalogue String := (tree.name, tree.attributes)

mutual

theorem sublist_preorder_stripTree (names : List String) : ∀ tree : Tree,
    ((stripTree names tree).preorder.map label).Sublist (tree.preorder.map label)
  | ⟨name, attributes, children⟩ => by
    rw [stripTree, preorder, preorder, List.map_cons, List.map_cons]
    exact (sublist_preorderAll_strip names children).cons_cons (name, attributes)

/-- The nodes that are left are some of those that were there, in the same order. -/
theorem sublist_preorderAll_strip (names : List String) : ∀ trees : List Tree,
    ((preorderAll (strip names trees)).map label).Sublist ((preorderAll trees).map label)
  | [] => .slnil
  | tree :: rest => by
    have hrest := sublist_preorderAll_strip names rest
    rw [strip, preorderAll, List.map_append]
    split
    · exact hrest.trans (List.sublist_append_right _ _)
    · rw [preorderAll, List.map_append]
      exact (sublist_preorder_stripTree names tree).append hrest

end

theorem markedNames_eq (tree : Tree) (marker : String) : tree.markedNames marker =
    ((tree.descendants.map label).filter fun node => node.1 = marker).filterMap
      fun node => node.2.find? "name" := by
  rw [List.filter_map, List.filterMap_map]
  rfl

/-- What is marked afterwards was marked before. -/
theorem sublist_markedNames_stripRemoved (definitions : Definitions) (marker : String) :
    (definitions.stripRemoved.toTree.markedNames marker).Sublist
      (definitions.toTree.markedNames marker) := by
  rw [markedNames_eq, markedNames_eq]
  exact ((sublist_preorderAll_strip _ _).filter _).filterMap _

theorem length_findAll_stripRemoved_le (definitions : Definitions) (marker : String) :
    (definitions.stripRemoved.toTree.findAll marker).length ≤
      (definitions.toTree.findAll marker).length := by
  have hlength : ∀ tree : Tree, (tree.findAll marker).length =
      ((tree.descendants.map label).filter fun node => node.1 = marker).length := by
    intro tree
    rw [List.filter_map, List.length_map]
    rfl
  rw [hlength, hlength]
  exact ((sublist_preorderAll_strip _ _).filter _).length_le

theorem ArePlaced.stripRemoved {definitions : Definitions} (h : definitions.ArePlaced) :
    definitions.stripRemoved.ArePlaced := by
  intro name position hposition
  have hbefore := h name position hposition
  rw [length_defines, ← definedNames_strip (definitions.toTree.markedNames "removed")] at hbefore
  rwa [length_defines]

mutual

theorem stripTree_nil : ∀ tree : Tree, stripTree [] tree = tree
  | ⟨name, attributes, children⟩ => by rw [stripTree, strip_nil children]

theorem strip_nil : ∀ trees : List Tree, strip [] trees = trees
  | [] => rfl
  | tree :: rest => by
    have hkept : isRemoved [] tree = false := by
      cases h : tree.attribute? "name" <;> simp [isRemoved, h]
    rw [strip, hkept, if_neg Bool.false_ne_true, stripTree_nil tree, strip_nil rest]

end

/-- Nothing goes away where nothing is marked as removed. -/
theorem stripRemoved_eq_self {definitions : Definitions}
    (h : definitions.toTree.findAll "removed" = []) : definitions.stripRemoved = definitions := by
  rw [stripRemoved, markedNames, h, List.filterMap_nil, strip_nil]

/-! ### Elements -/

mutual

theorem mem_elementsAt {direct : Bool} : ∀ {tree element : Tree}, element ∈ elementsAt direct tree →
    element.name = "element" ∧ element ∈ tree.preorder
  | ⟨name, attributes, children⟩, element, h => by
    rw [elementsAt, List.mem_append] at h
    rw [preorder, List.mem_cons]
    rcases h with h | h
    · split at h
      · rename_i hdirect
        rw [Bool.and_eq_true, decide_eq_true_iff] at hdirect
        obtain rfl := List.mem_singleton.mp h
        exact ⟨hdirect.2, .inl rfl⟩
      · simp at h
    · obtain ⟨hname, hmem⟩ := mem_elementsBelow h
      exact ⟨hname, .inr hmem⟩

/-- The elements that stand in definitions are nodes of the trees. -/
theorem mem_elementsBelow {direct : Bool} : ∀ {trees : List Tree} {element : Tree},
    element ∈ elementsBelow direct trees → element.name = "element" ∧ element ∈ preorderAll trees
  | [], _, h => absurd h List.not_mem_nil
  | tree :: rest, element, h => by
    rw [elementsBelow, List.mem_append] at h
    rw [preorderAll, List.mem_append]
    rcases h with h | h
    · obtain ⟨hname, hmem⟩ := mem_elementsAt h
      exact ⟨hname, .inl hmem⟩
    · obtain ⟨hname, hmem⟩ := mem_elementsBelow h
      exact ⟨hname, .inr hmem⟩

end

/-- **Only elements of the grammar are defined.** -/
theorem mem_elements {definitions : Definitions} {element : Tree}
    (h : element ∈ definitions.elements) :
    element.name = "element" ∧ element ∈ preorderAll definitions.children := by
  rw [elements] at h
  generalize definitions.children = trees at h ⊢
  generalize 0 = position at h
  induction trees generalizing position with
  | nil => exact absurd h List.not_mem_nil
  | cons tree rest ih =>
    have hbelow : ∀ direct, element ∈ elementsBelow direct tree.children →
        element.name = "element" ∧ element ∈ preorderAll (tree :: rest) := by
      intro direct hmem
      obtain ⟨hname, hmem⟩ := mem_elementsBelow hmem
      exact ⟨hname, List.mem_append_left _ (mem_preorder_of_below hmem)⟩
    rw [elementsFrom] at h
    split at h
    all_goals
      rcases List.mem_append.mp h with h | h
      · exact hbelow _ h
      · obtain ⟨hname, hmem⟩ := ih _ h
        exact ⟨hname, List.mem_append_right _ hmem⟩

/-- What is below a node of some trees is below these. -/
theorem mem_preorderAll_of_below : ∀ {trees : List Tree} {node below : Tree},
    node ∈ preorderAll trees → below ∈ node.descendants → below ∈ preorderAll trees
  | [], _, _, h, _ => absurd h List.not_mem_nil
  | ⟨name, attributes, children⟩ :: rest, node, below, h, hbelow => by
    rw [preorderAll, preorder, List.mem_append, List.mem_cons] at h ⊢
    rcases h with (rfl | h) | h
    · exact .inl (.inr hbelow)
    · exact .inl (.inr (mem_preorderAll_of_below h hbelow))
    · exact .inr (mem_preorderAll_of_below h hbelow)

/-- The bodies of the definitions are nodes of the grammar. -/
theorem mem_preorderAll_of_bodies {definitions : Definitions} {entry : String × List Tree}
    (hentry : entry ∈ definitions.bodies.entries) {node : Tree}
    (hnode : node ∈ preorderAll entry.2) : node ∈ preorderAll definitions.children := by
  obtain ⟨⟨name, position⟩, -, rfl⟩ := List.mem_map.mp hentry
  change node ∈ preorderAll ((definitions.defines[position]?.map Tree.children).getD []) at hnode
  cases hdefine : definitions.defines[position]? with
  | none => simp [hdefine, preorderAll] at hnode
  | some define =>
    have hmem : define ∈ definitions.children :=
      (List.mem_filter.mp (List.mem_of_getElem? hdefine)).1
    rw [hdefine] at hnode
    exact mem_preorderAll.mpr ⟨define, hmem, mem_preorder_of_below hnode⟩

mutual

theorem elementsAt_eq_nil : ∀ {tree : Tree}, (∀ node ∈ tree.preorder, node.name ≠ "define") →
    elementsAt false tree = []
  | ⟨name, attributes, children⟩, h => by
    rw [preorder, List.forall_mem_cons] at h
    obtain ⟨hname, hchildren⟩ := h
    rw [elementsAt, decide_eq_false hname, elementsBelow_eq_nil hchildren]
    rfl

/-- There are no elements in definitions below trees without definitions. -/
theorem elementsBelow_eq_nil : ∀ {trees : List Tree},
    (∀ node ∈ preorderAll trees, node.name ≠ "define") → elementsBelow false trees = []
  | [], _ => rfl
  | tree :: rest, h => by
    rw [preorderAll, List.forall_mem_append] at h
    obtain ⟨hfirst, hrest⟩ := h
    rw [elementsBelow, elementsAt_eq_nil hfirst, elementsBelow_eq_nil hrest]
    rfl

end

/-- A definition of the core holds its element, or none. -/
theorem elementsBelow_of_isNamedDefinition {tree : Tree} (h : IsNamedDefinition tree) :
    elementsBelow true tree.children = tree.element?.toList := by
  have hbelow := h.isPlainBelow
  obtain ⟨node, hchildren⟩ : ∃ node, tree.children = [node] := by
    obtain ⟨-, name, -, hdefinition⟩ := h
    cases hdefinition with
    | element hchildren _ _ _ => exact ⟨_, hchildren⟩
    | pattern hchildren _ => exact ⟨_, hchildren⟩
  have hnode : ∀ inner ∈ node.preorder, inner.name ≠ "define" := fun inner hinner =>
    hbelow.name_ne (by decide) inner (mem_preorderAll.mpr ⟨node, by simp [hchildren], hinner⟩)
  obtain ⟨name, attributes, children⟩ := node
  rw [preorder, List.forall_mem_cons] at hnode
  obtain ⟨hname, hinner⟩ := hnode
  rw [element?, hchildren, List.find?_singleton, elementsBelow, elementsBelow, elementsAt,
    decide_eq_false hname, elementsBelow_eq_nil hinner, Bool.true_and, List.append_nil,
    List.append_nil]
  split <;> rfl

/-- The elements of the last children of a grammar are those that their definitions hold. -/
theorem elementsFrom_eq_filterMap {definitions : Definitions} {position : Nat} {trees : List Tree}
    (hcore : ∀ tree ∈ trees, IsPlainBelow tree ∧ (isDefine tree = true → IsNamedDefinition tree))
    (hpositions : ∀ index name, (definedNames trees)[index]? = some (some name) →
      definitions.positions.find? name = some (position + index)) :
    definitions.elementsFrom position trees = (trees.filter isDefine).filterMap element? := by
  induction trees generalizing position with
  | nil => rfl
  | cons tree rest ih =>
    have hrest := fun other hother => hcore other (List.mem_cons_of_mem _ hother)
    obtain ⟨hbelow, hdefine⟩ := hcore tree List.mem_cons_self
    rw [elementsFrom]
    split
    · -- A definition takes the position, and the rest begins at the next one.
      rename_i htree
      obtain ⟨-, name, hname, -⟩ := hdefine htree
      rw [definedNames_cons_of_isDefine htree] at hpositions
      have hregistered : definitions.isRegistered position tree = true := by
        have hposition := hpositions 0 name (by rw [List.getElem?_cons_zero, hname])
        rw [isRegistered, hname, Option.bind_some, hposition]
        exact decide_eq_true rfl
      rw [hregistered, elementsBelow_of_isNamedDefinition (hdefine htree), ih hrest,
        List.filter_cons_of_pos htree, List.filterMap_cons]
      · cases tree.element? <;> rfl
      · intro index name hindex
        rw [hpositions (index + 1) name hindex]
        congr 1
        omega
    · -- Nothing below a start is in a definition.
      rename_i htree
      have hnone := definedNames_cons_of_not_isDefine (Bool.not_eq_true _ ▸ htree) rest
      rw [elementsBelow_eq_nil (hbelow.name_ne (by decide)),
        ih hrest (fun index name hindex => hpositions index name (by rwa [hnone])),
        List.filter_cons_of_neg htree]
      rfl

/-- **The elements of a core grammar are those that its definitions hold.** -/
theorem elements_eq_filterMap {definitions : Definitions} (h : definitions.AreRegistered)
    (hcore : ∀ tree ∈ definitions.children,
      IsPlainBelow tree ∧ (isDefine tree = true → IsNamedDefinition tree)) :
    definitions.elements = definitions.defines.filterMap element? :=
  elementsFrom_eq_filterMap hcore fun index name hindex => by rw [Nat.zero_add, h, hindex]

end RelaxSchema.Definitions
