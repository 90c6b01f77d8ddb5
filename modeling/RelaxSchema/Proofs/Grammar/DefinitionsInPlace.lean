import RelaxSchema.Proofs.Grammar.Marking
import RelaxSchema.Proofs.Grammar.RegistrationInPlace
import RelaxSchema.Proofs.Grammar.RemovalInPlace

/-!
# Definitions in place

What is read from a forest after its definitions are registered and the marked names are removed,
all of it in place.

* `Registry.IsRegistry.find?_definitions`: a name has the tree of the element that is registered;
* `Registry.IsRegistry.definitions_removeMarked`: to remove names in place is to remove them from
  the trees, and what is registered stays;
* `Registry.IsRegistry.map_tree_elements`: the elements in definitions, found by their parents, have
  the trees that are defined;
* `Registry.collect_tree_removeMarked`: all of it for a grammar element.
-/

namespace RelaxSchema.Registry

open List
open Definitions (elementsAt elementsBelow)
open PlantedTree (toTree)

variable {registry : Registry} {grammar : Nat}

/-! ### Names -/

/-- **A name has the tree of the definition that is registered.** -/
theorem IsRegistry.find?_definitions (h : registry.IsRegistry grammar) (name : String) :
    (registry.definitions grammar).find? name =
      (registry.ids.find? name).map registry.forest.tree := by
  rw [Definitions.find?, definitions, find?_positions, defines_among h.isForest]
  cases hid : registry.ids.find? name with
  | none => rfl
  | some id =>
    rw [Option.map_some, Option.bind_some, getElem?_map, getElem?_idxOf (h.mem_defines name id hid)]

/-! ### Removed names -/

/-- Takes the elements and references with marked names out of their places. -/
def removeMarked (registry : Registry) (grammar : Nat) : Registry :=
  { registry with forest := registry.forest.removeMarked grammar }

/-- The number of definitions is seen in the trees. -/
theorem length_defines {forest : Forest} (h : forest.IsForest) (ids : List Nat) :
    (ids.filter fun id => forest.isNamed id "define").length =
      (Tree.definedNames (ids.map forest.tree)).length := by
  rw [Tree.length_definedNames, filter_map, length_map]
  exact congrArg length (filter_congr fun id _ => (h.isDefine_tree id).symm)

section Removal

variable (h : registry.IsRegistry grammar)

include h

theorem IsRegistry.markedNames_toTree (marker : String) :
    (registry.definitions grammar).toTree.markedNames marker =
      (registry.forest.tree grammar).markedNames marker := by
  rw [Tree.markedNames, Tree.markedNames, Tree.findAll, Tree.findAll, Tree.descendants,
    Tree.descendants, h.isForest.children_tree]
  rfl

/-- No definition among the children of the grammar element is removed. -/
theorem IsRegistry.defines_removeMarked :
    (registry.removeMarked grammar).defines
      ((registry.removeMarked grammar).forest.children grammar) =
      registry.defines (registry.forest.children grammar) := by
  obtain ⟨hpruned, hchildren⟩ := h.isForest.isPruned_removeMarked grammar
  have hdefines : ∀ ids, (registry.removeMarked grammar).defines ids = registry.defines ids :=
    defines_congr hpruned.label_eq
  have hlength := congrArg (fun trees => (Tree.definedNames trees).length) hchildren
  rw [Definitions.definedNames_strip, hpruned.isForest.children_tree, h.isForest.children_tree,
    ← length_defines hpruned.isForest, ← length_defines h.isForest] at hlength
  refine Sublist.eq_of_length ?_ hlength
  rw [hdefines]
  exact (hpruned.sublist_children grammar).filter _

theorem IsRegistry.removeMarked : (registry.removeMarked grammar).IsRegistry grammar where
  isForest := (h.isForest.isPruned_removeMarked grammar).1.isForest
  mem_defines name id hid := h.defines_removeMarked ▸ h.mem_defines name id hid

/-- **To remove names in place** is to remove them from the trees. What is registered stays. -/
theorem IsRegistry.definitions_removeMarked : (registry.removeMarked grammar).definitions grammar =
    (registry.definitions grammar).stripRemoved := by
  obtain ⟨hpruned, hchildren⟩ := h.isForest.isPruned_removeMarked grammar
  rw [hpruned.isForest.children_tree, ← h.markedNames_toTree, h.isForest.children_tree] at hchildren
  rw [definitions, among, h.defines_removeMarked, Definitions.stripRemoved]
  exact congrArg (Definitions.mk · _) hchildren

end Removal

/-! ### Registered definitions -/

/-- Whether the definition at an element is the registered one of its name. -/
def isRegistered (registry : Registry) (id : Nat) : Bool :=
  (registry.forest.attribute? id "name").bind registry.ids.find? = some id

section Marks

variable (h : registry.IsRegistry grammar)

include h

/-- A definition has the mark at its position exactly if it is registered. -/
theorem IsRegistry.isRegistered_eq {done rest : List Nat} {id : Nat}
    (hchildren : registry.forest.children grammar = done ++ id :: rest)
    (hdefine : registry.forest.isNamed id "define" = true) :
    (registry.definitions grammar).isRegistered (registry.defines done).length
      (registry.forest.tree id) = registry.isRegistered id := by
  have hall : registry.defines (registry.forest.children grammar) =
      registry.defines done ++ id :: registry.defines rest := by
    simp [hchildren, defines, hdefine]
  have hnodup := hchildren ▸ h.isForest.nodup_children grammar
  have hposition : (registry.defines (registry.forest.children grammar)).idxOf id =
      (registry.defines done).length := by
    have hnotMem : id ∉ registry.defines done := fun hmem =>
      Forest.notMem_of_nodup hnodup (mem_of_mem_filter hmem)
    rw [hall, idxOf_append_of_notMem hnotMem, idxOf_cons_self, Nat.add_zero]
  rw [Definitions.isRegistered, isRegistered, h.isForest.attribute?_tree, ← hposition]
  cases registry.forest.attribute? id "name" with
  | none => rfl
  | some name =>
    rw [Option.bind_some, Option.bind_some, definitions, find?_positions]
    cases hfound : registry.ids.find? name with
    | none => rfl
    | some other =>
      refine decide_eq_decide.mpr ?_
      rw [Option.map_some, Option.some.injEq, Option.some.injEq]
      exact idxOf_inj (h.mem_defines name other hfound)

theorem IsRegistry.markedFrom_eq {done rest : List Nat}
    (hchildren : registry.forest.children grammar = done ++ rest) :
    (registry.definitions grammar).markedFrom (registry.defines done).length
        (rest.map registry.forest.tree) =
      rest.map fun id => ⟨registry.forest.tree id,
        registry.forest.isNamed id "define" && registry.isRegistered id⟩ := by
  induction rest generalizing done with
  | nil => rfl
  | cons id rest ih =>
    have ih := ih (hchildren.trans (append_cons done id rest))
    rw [map_cons, map_cons]
    cases hdefine : registry.forest.isNamed id "define" with
    | false =>
      rw [defines_concat_other hdefine] at ih
      rw [Definitions.markedFrom_other ((h.isForest.isDefine_tree id).trans hdefine),
        ih, Bool.false_and]
    | true =>
      rw [defines_concat_define hdefine, length_append, length_singleton] at ih
      rw [Definitions.markedFrom_define ((h.isForest.isDefine_tree id).trans hdefine), ih,
        h.isRegistered_eq hchildren hdefine, Bool.true_and]

/-- The children of the grammar element with their marks. -/
theorem IsRegistry.marked_definitions : (registry.definitions grammar).marked =
    (registry.forest.children grammar).map fun id => ⟨registry.forest.tree id,
      registry.forest.isNamed id "define" && registry.isRegistered id⟩ :=
  h.markedFrom_eq (nil_append _).symm

end Marks

/-! ### Elements in definitions -/

/-- Whether an element is a definition whose elements count. A definition among the children of the
grammar element has to be registered. -/
def counts (registry : Registry) (grammar id : Nat) : Bool :=
  registry.forest.isNamed id "define" &&
    (registry.forest.parent? id ≠ some grammar || registry.isRegistered id)

/-- The elements below a grammar element that stand directly in definitions that count. -/
def elements (registry : Registry) (grammar : Nat) : List Nat :=
  (registry.forest.findAll grammar "element").filter fun id =>
    (registry.forest.parent? id).any (registry.counts grammar)

/-- Those of some elements that stand directly in definitions that count. -/
def elementsAmong (registry : Registry) (grammar : Nat) (ids : List Nat) : List Nat :=
  ids.filter fun id => registry.forest.isNamed id "element" &&
    (registry.forest.parent? id).any (registry.counts grammar)

theorem elements_eq (registry : Registry) (grammar : Nat) : registry.elements grammar =
    registry.elementsAmong grammar (registry.forest.descendants grammar) := by
  rw [elements, elementsAmong, Forest.findAll, filter_filter]
  exact filter_congr fun id _ => Bool.and_comm _ _

theorem elementsAmong_append (before after : List Nat) :
    registry.elementsAmong grammar (before ++ after) =
      registry.elementsAmong grammar before ++ registry.elementsAmong grammar after :=
  filter_append before after

theorem elementsAt_eq (direct : Bool) (tree : Tree) : elementsAt direct tree =
    (if direct && tree.name = "element" then [tree] else []) ++
      elementsBelow (tree.name = "define") tree.children := by
  cases tree
  rfl

section Elements

variable (h : registry.forest.IsForest)

include h

/-- The elements that stand in a tree, told by the trees. -/
theorem map_tree_elementsAmong {trees : List PlantedTree} {parent : Nat} {direct : Bool}
    (hholds : ∀ tree ∈ trees, registry.forest.Holds (some parent) tree)
    (hparent : parent ≠ grammar) (habove : grammar ∉ PlantedTree.ids trees)
    (hdirect : registry.counts grammar parent = direct) :
    (registry.elementsAmong grammar (PlantedTree.ids trees)).map registry.forest.tree =
      elementsBelow direct (trees.map toTree) := by
  induction trees using PlantedTree.induction generalizing parent direct with
  | nil => rfl
  | cons tree rest ihchildren ihrest =>
    obtain ⟨htree, hrest⟩ := forall_mem_cons.mp hholds
    rw [PlantedTree.ids_cons, mem_cons, mem_append, not_or, not_or] at habove
    obtain ⟨hroot, hchildren, hlast⟩ := habove
    have hnamed : ∀ name, registry.forest.isNamed tree.id name = decide (tree.name = name) := by
      intro name
      rw [Forest.isNamed, htree.node_eq]
    -- A definition below another element than the grammar element counts in any case.
    have hcounts : registry.counts grammar tree.id = decide (tree.name = "define") := by
      rw [counts, htree.parent?_eq, hnamed]
      simp [hparent]
    have hself : (registry.elementsAmong grammar [tree.id]).map registry.forest.tree =
        if direct && tree.toTree.name = "element" then [tree.toTree] else [] := by
      rw [elementsAmong, filter_singleton, htree.parent?_eq, Option.any_some, hdirect, hnamed,
        PlantedTree.name_toTree, ← h.tree_eq_toTree htree, Bool.and_comm]
      cases direct && decide (tree.name = "element") <;> rfl
    have hbelow := ihchildren htree.forall_children (Ne.symm hroot) hchildren hcounts
    rw [PlantedTree.ids_cons, ← singleton_append, elementsAmong_append,
      elementsAmong_append, map_append,
      map_append, hself, hbelow, ihrest hrest hparent hlast hdirect, map_cons, elementsBelow,
      elementsAt_eq, PlantedTree.children_toTree, PlantedTree.name_toTree, append_assoc]

/-- Of the children of a grammar element, the definitions among them have to be registered. -/
theorem map_tree_elementsAmong_children {trees : List PlantedTree}
    (hholds : ∀ tree ∈ trees, registry.forest.Holds (some grammar) tree)
    (hgrammar : registry.forest.isNamed grammar "define" = false) :
    (registry.elementsAmong grammar (PlantedTree.ids trees)).map registry.forest.tree =
      (trees.map PlantedTree.id).flatMap fun id => elementsBelow
        (registry.forest.isNamed id "define" && registry.isRegistered id)
        (registry.forest.tree id).children := by
  induction trees with
  | nil => rfl
  | cons tree rest ih =>
    obtain ⟨htree, hrest⟩ := forall_mem_cons.mp hholds
    have hself : registry.elementsAmong grammar [tree.id] = [] := by
      rw [elementsAmong, filter_singleton, htree.parent?_eq, Option.any_some, counts, hgrammar,
        Bool.false_and, Bool.and_false, cond_false]
    have hcounts : registry.counts grammar tree.id =
        (registry.forest.isNamed tree.id "define" && registry.isRegistered tree.id) := by
      rw [counts, htree.parent?_eq]
      simp
    have hbelow : registry.forest.IsBelow tree.id grammar := .single htree.parent?_eq
    have hroot : tree.id ≠ grammar := fun hsame => h.not_isBelow_self grammar (hsame ▸ hbelow)
    have habove : grammar ∉ PlantedTree.ids tree.children := fun hmem =>
      h.not_isBelow_self grammar ((htree.isBelow_of_mem grammar hmem).trans hbelow)
    rw [PlantedTree.ids_cons, ← singleton_append, elementsAmong_append, hself, nil_append,
      elementsAmong_append, map_append, ih hrest, map_cons, flatMap_cons, h.tree_eq_toTree htree,
      PlantedTree.children_toTree,
      map_tree_elementsAmong h htree.forall_children hroot habove hcounts]

end Elements

/-- **The elements in definitions are found in place.** -/
theorem IsRegistry.map_tree_elements (h : registry.IsRegistry grammar)
    (hgrammar : registry.forest.isNamed grammar "define" = false) :
    (registry.elements grammar).map registry.forest.tree =
      (registry.definitions grammar).elements := by
  obtain ⟨tree, rfl, hholds⟩ := h.isForest.exists_holds grammar
  rw [elements_eq, h.isForest.descendants_eq_ids hholds, Definitions.elements_eq_flatMap,
    h.marked_definitions, flatMap_map, hholds.children_eq]
  exact map_tree_elementsAmong_children h.isForest hholds.forall_children hgrammar

/-! ### Registration and removal -/

/-- **The definitions of a grammar in place.** For a grammar element of a forest, registration fails
as it does for the tree. Otherwise what is left of the definitions of the tree when the marked names
are removed is said by the registry after they are removed in place: the children, the names with
their definitions, and the elements in definitions. -/
theorem collect_tree_removeMarked {forest : Forest} (h : forest.IsForest)
    (hgrammar : forest.isNamed grammar "grammar" = true) :
    (∀ error, Definitions.collect (forest.tree grammar) = .error error ↔
      collect forest grammar = .error error) ∧
    ∀ registry, collect forest grammar = .ok registry → ∃ definitions,
      Definitions.collect (forest.tree grammar) = .ok definitions ∧
      let final := registry.removeMarked grammar
      final.definitions grammar = definitions.stripRemoved ∧
        (∀ name, definitions.stripRemoved.find? name =
          (registry.ids.find? name).map final.forest.tree) ∧
        definitions.stripRemoved.elements = (final.elements grammar).map final.forest.tree := by
  obtain ⟨hcollect, hregistry⟩ := collect_tree h grammar
  refine ⟨fun error => ?_, fun registry hok => ?_⟩
  · rw [hcollect]
    cases collect forest grammar <;> simp [Except.map]
  · obtain ⟨hcollected, hlabel, -⟩ := hregistry registry hok
    have hfinal := hcollected.removeMarked
    have hsame := hcollected.definitions_removeMarked
    have hpruned := (hcollected.isForest.isPruned_removeMarked grammar).1
    refine ⟨registry.definitions grammar, by rw [hcollect, hok]; rfl, hsame, fun name => ?_, ?_⟩
    · rw [← hsame]
      exact hfinal.find?_definitions name
    · have hname : ((registry.removeMarked grammar).forest.node grammar).name = "grammar" :=
        (congrArg Prod.fst ((hpruned.label_eq grammar).trans (hlabel grammar))).trans
          (of_decide_eq_true hgrammar)
      have hdefine : (registry.removeMarked grammar).forest.isNamed grammar "define" = false := by
        rw [Forest.isNamed, hname]
        decide
      rw [← hsame, hfinal.map_tree_elements hdefine]

/-- The second definition hands its children to the first one, and one of them is removed there. -/
example :
    let named (name value : String) (children : List Tree) : Tree :=
      ⟨name, .ofList [("name", value)], children⟩
    let combined : Tree := ⟨"define", .ofList [("name", "x"), ("combine", "interleave")],
      [named "element" "b" [], named "element" "c" []]⟩
    let forest := Forest.ofTree (.plain "grammar" [named "define" "x" [named "element" "a" []],
      combined, named "removed" "b" []])
    (collect forest 0).map (fun registry =>
      (registry.ids.entries, registry.forest.children 1, (registry.removeMarked 0).elements 0)) =
        .ok ([("x", 1)], [2, 4, 5], [2, 5]) := by
  rfl

end RelaxSchema.Registry
