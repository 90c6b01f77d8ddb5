import RelaxSchema.Proofs.Grammar.Removal
import RelaxSchema.Proofs.Grammar.Sweeps

/-!
# Removed names in place

The removal of names as edits of a forest: name by name, the elements and references of that name
are listed and then taken out of their places one after the other.

* `Forest.IsForest.isDetached_foldl`: what a forest looks like after some elements are taken out;
* `Forest.IsDetached.tree_eq`: a tree is then without those of them that were in it, and without
  what is below these;
* `Forest.IsForest.isPruned_removeMarked`: what is left stands below the same elements in the same
  order, and its trees are what is left of those that were there.

An element below another one of its name is taken out of its place as well, when it has already left
the grammar. That makes no difference to the trees in the grammar.
-/

namespace RelaxSchema

namespace Definitions

theorem strip_eq_map_filter (names : List String) (trees : List Tree) :
    strip names trees =
      (trees.filter fun tree => !isRemoved names tree).map (stripTree names) := by
  induction trees with
  | nil => rfl
  | cons tree rest ih =>
    rw [strip, ih]
    cases hremoved : isRemoved names tree <;> simp [hremoved]

end Definitions

namespace Forest

open List

variable {forest middle forest' : Forest} {top : Nat} {name : String} {names : List String}

/-! ### Detached elements -/

/-- A forest after some elements are taken out of their places. -/
structure IsDetached (forest forest' : Forest) (gone : List Nat) : Prop where
  /-- It still is a forest. -/
  isForest : forest'.IsForest
  /-- Names and attributes stay as they are. -/
  label_eq : ∀ id, forest'.label id = forest.label id
  /-- Other children than these stay in their places. -/
  children_eq : ∀ id, forest'.children id = (forest.children id).filter fun child => child ∉ gone

/-- **Elements are taken out** one after the other. -/
theorem IsForest.isDetached_foldl (h : forest.IsForest) (ids : List Nat) :
    IsDetached forest (ids.foldl Forest.detach forest) ids := by
  refine foldl_induction (P := fun done state => IsDetached forest state done)
    ⟨h, fun _ => rfl, fun _ => by simp⟩ fun done id _ state _ hstate => ?_
  constructor
  · exact hstate.isForest.detach id
  · exact fun other => (hstate.isForest.label_detach id other).trans (hstate.label_eq other)
  · intro other
    rw [hstate.isForest.children_detach, hstate.children_eq, filter_filter]
    refine filter_congr fun child _ => ?_
    simp [and_comm]

/-- **What is left of a tree**, if the elements in it that are gone are those to be removed. -/
theorem IsDetached.tree_eq {gone : List Nat} (h : IsDetached forest forest' gone)
    (hforest : forest.IsForest) (hgone : ∀ id, forest.IsBelow id top →
      (id ∈ gone ↔ Definitions.isRemoved names (forest.tree id) = true))
    {id : Nat} (hid : forest.IsAtOrBelow id top) :
    forest'.tree id = Definitions.stripTree names (forest.tree id) := by
  induction id using hforest.induction with
  | hstep id ih =>
    have hchild : ∀ child ∈ forest.children id, forest.IsBelow child top := fun child hchild =>
      .head' ((hforest.mem_children_iff child id).mp hchild) hid
    have hkept : (forest.children id).filter (fun child => child ∉ gone) =
        (forest.children id).filter fun child =>
          !Definitions.isRemoved names (forest.tree child) := by
      refine filter_congr fun child hmem => ?_
      rw [Bool.eq_iff_iff, decide_eq_true_iff, hgone child (hchild child hmem), Bool.not_eq_true,
        Bool.not_eq_true']
    obtain ⟨hname, hattributes⟩ := Prod.mk.inj (h.label_eq id)
    rw [h.isForest.tree_eq, hforest.tree_eq, Definitions.stripTree, Definitions.strip_eq_map_filter,
      filter_map, map_map, h.children_eq, hkept, hname, hattributes]
    refine congrArg _ (map_congr_left fun child hmem => ?_)
    have hmem := mem_of_mem_filter hmem
    exact ih child hmem (hchild child hmem).to_reflTransGen

/-! ### Pruned forests -/

/-- A forest in which elements were taken out of their places and nothing else was done. -/
structure IsPruned (forest forest' : Forest) : Prop where
  /-- It still is a forest. -/
  isForest : forest'.IsForest
  /-- Names and attributes stay as they are. -/
  label_eq : ∀ id, forest'.label id = forest.label id
  /-- The children that are left were there before, and are in the same order. -/
  sublist_children : ∀ id, forest'.children id <+ forest.children id

theorem IsPruned.refl (h : forest.IsForest) : IsPruned forest forest :=
  ⟨h, fun _ => rfl, fun _ => .refl _⟩

theorem IsPruned.trans (h : IsPruned forest middle) (h' : IsPruned middle forest') :
    IsPruned forest forest' where
  isForest := h'.isForest
  label_eq id := (h'.label_eq id).trans (h.label_eq id)
  sublist_children id := (h'.sublist_children id).trans (h.sublist_children id)

theorem IsDetached.isPruned {gone : List Nat} (h : IsDetached forest forest' gone) :
    IsPruned forest forest' :=
  ⟨h.isForest, h.label_eq, fun id => h.children_eq id ▸ filter_sublist⟩

/-! ### Removed names -/

/-- The elements and references of a name below an element. -/
def namesakes (forest : Forest) (top : Nat) (name : String) : List Nat :=
  (forest.descendants top).filter fun id =>
    (forest.isNamed id "element" || forest.isNamed id "ref") &&
      forest.attribute? id "name" = some name

/-- Takes the elements and references of a name below an element out of their places. -/
def removeName (forest : Forest) (top : Nat) (name : String) : Forest :=
  (forest.namesakes top name).foldl detach forest

/-- Takes the elements and references below an element out of their places whose names are marked as
removed there, name by name. -/
def removeMarked (forest : Forest) (top : Nat) : Forest :=
  ((forest.findAll top "removed").filterMap fun id => forest.attribute? id "name").foldl
    (fun forest name => forest.removeName top name) forest

section Removal

variable (h : forest.IsForest)

include h

theorem IsForest.mem_namesakes_iff {id : Nat} : id ∈ forest.namesakes top name ↔
    forest.IsBelow id top ∧ Definitions.isRemoved [name] (forest.tree id) = true := by
  rw [namesakes, mem_filter, (h.isListing_descendants top).mem_iff, Definitions.isRemoved,
    h.name_tree, h.attribute?_tree]
  refine and_congr_right fun _ => ?_
  cases forest.attribute? id "name" <;> simp [isNamed]

theorem IsForest.isPruned_removeName (top : Nat) (name : String) :
    IsPruned forest (forest.removeName top name) :=
  (h.isDetached_foldl _).isPruned

theorem IsForest.tree_removeName (top : Nat) (name : String) :
    (forest.removeName top name).tree top = Definitions.stripTree [name] (forest.tree top) := by
  refine (h.isDetached_foldl _).tree_eq h (fun id hbelow => ?_) .refl
  rw [h.mem_namesakes_iff]
  exact and_iff_right hbelow

theorem IsForest.markedNames_tree (top : Nat) (marker : String) :
    (forest.tree top).markedNames marker =
      (forest.findAll top marker).filterMap fun id => forest.attribute? id "name" := by
  rw [Tree.markedNames, ← h.map_tree_findAll, filterMap_map]
  exact filterMap_congr fun id _ => h.attribute?_tree id "name"

/-- **The marked names are removed in place**: the elements that are left stand below the same ones
and in the same order as before, and the trees below the element are what is left of those that were
there. -/
theorem IsForest.isPruned_removeMarked (top : Nat) :
    IsPruned forest (forest.removeMarked top) ∧
      ((forest.removeMarked top).tree top).children =
        Definitions.strip ((forest.tree top).markedNames "removed") (forest.tree top).children := by
  rw [Definitions.strip_eq_foldl, h.markedNames_tree]
  refine foldl_induction (P := fun done state => IsPruned forest state ∧ (state.tree top).children =
    done.foldl (fun left name => Definitions.strip [name] left) (forest.tree top).children)
    ⟨.refl h, rfl⟩ fun done name _ state _ hstate => ?_
  obtain ⟨hpruned, hchildren⟩ := hstate
  refine ⟨hpruned.trans (hpruned.isForest.isPruned_removeName top name), ?_⟩
  rw [hpruned.isForest.tree_removeName, Definitions.children_stripTree, hchildren,
    List.foldl_concat]

end Removal

/-- The inner `a` is taken out of the outer one, which is out of the grammar by then. -/
example :
    let named (name value : String) (children : List Tree) : Tree :=
      ⟨name, .ofList [("name", value)], children⟩
    let forest := ofTree (.plain "grammar" [named "removed" "a" [],
      named "element" "a" [named "ref" "b" [], named "element" "a" []], named "element" "b" []])
    (forest.removeMarked 0).descendants 0 = [1, 5] ∧ (forest.removeMarked 0).children 2 = [3] := by
  decide +kernel

end Forest

end RelaxSchema
