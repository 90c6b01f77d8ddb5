import RelaxSchema.Proofs.Grammar.DocumentOrder

/-!
# Dissolving elements

An element is dissolved when it is taken away and its children stay behind in its place.

* `Forest.IsForest.children_dissolve`: all other elements have the same children, but for the one
  that was dissolved, which has left its own;
* `Forest.IsForest.descendants_dissolve`: the elements below another one are the same and in the
  same order, without the one that was dissolved;
* `Forest.IsDissolved.dissolve`: what a forest looks like after any number of such steps.

In the place of an element that is gone stands what stands in the places of its children, and an
element that is still there stands in its own place. With these places the children of an element
are told from those that it had at first, however the steps followed each other.
-/

namespace RelaxSchema.Forest

open List PlantedTree

variable {forest forest' : Forest}

/-! ### Trees of elements -/

/-- What holds of an element if it does so of its children holds of all elements. -/
theorem IsForest.induction (h : forest.IsForest) {P : Nat → Prop}
    (hstep : ∀ id, (∀ child ∈ forest.children id, P child) → P id) (id : Nat) : P id := by
  obtain ⟨tree, rfl, hholds⟩ := h.exists_holds id
  generalize forest.parent? tree.id = parent at hholds
  induction hholds with
  | @intro parent tree hnode _ ih =>
    refine hstep tree.id fun child hchild => ?_
    rw [children, hnode] at hchild
    obtain ⟨below, hbelow, rfl⟩ := mem_map.mp hchild
    exact ih below hbelow

theorem IsForest.tree_eq_toTree (h : forest.IsForest) {parent : Option Nat} {tree : PlantedTree}
    (hholds : forest.Holds parent tree) : forest.tree tree.id = tree.toTree := by
  have hle := h.length_preorderAll_le hholds
  refine hholds.treeWithin_eq ?_
  rw [preorder_eq, length_cons]
  omega

/-- The tree of an element has those of its children. -/
theorem IsForest.tree_eq (h : forest.IsForest) (id : Nat) : forest.tree id =
    ⟨(forest.node id).name, (forest.node id).attributes, (forest.children id).map forest.tree⟩ := by
  obtain ⟨tree, rfl, hholds⟩ := h.exists_holds id
  rw [h.tree_eq_toTree hholds, toTree_eq, hholds.children_eq, hholds.node_eq, map_map]
  congr 1
  exact map_congr_left fun child hchild =>
    (h.tree_eq_toTree (hholds.forall_children child hchild)).symm

theorem IsForest.name_tree (h : forest.IsForest) (id : Nat) :
    (forest.tree id).name = (forest.node id).name := by
  rw [h.tree_eq]

theorem IsForest.attribute?_tree (h : forest.IsForest) (id : Nat) (name : String) :
    (forest.tree id).attribute? name = forest.attribute? id name := by
  rw [h.tree_eq]
  rfl

theorem IsForest.children_tree (h : forest.IsForest) (id : Nat) :
    (forest.tree id).children = (forest.children id).map forest.tree := by
  rw [h.tree_eq]

/-- The elements below an element have the trees below its tree. -/
theorem IsForest.map_tree_descendants (h : forest.IsForest) (id : Nat) :
    (forest.descendants id).map forest.tree = (forest.tree id).descendants := by
  obtain ⟨tree, rfl, hholds⟩ := h.exists_holds id
  rw [h.descendants_eq_ids hholds, h.tree_eq_toTree hholds, Tree.descendants, children_toTree,
    ← map_toTree_preorderAll, ids, map_map]
  refine map_congr_left fun below hbelow => ?_
  obtain ⟨_, hstands⟩ := hholds.forall_preorder below (mem_preorder_of_below hbelow)
  exact h.tree_eq_toTree hstands

theorem IsForest.map_tree_findAll (h : forest.IsForest) (id : Nat) (name : String) :
    (forest.findAll id name).map forest.tree = (forest.tree id).findAll name := by
  rw [Tree.findAll, ← h.map_tree_descendants, filter_map]
  refine congrArg (map forest.tree) (filter_congr fun other _ => ?_)
  exact congrArg (fun found => decide (found = name)) (h.name_tree other).symm

/-! ### Names and attributes -/

/-- The name and the attributes of an element. -/
def label (forest : Forest) (id : Nat) : String × Catalogue String :=
  ((forest.node id).name, (forest.node id).attributes)

theorem IsForest.label_detach (h : forest.IsForest) (id other : Nat) :
    (forest.detach id).label other = forest.label other := by
  cases hparent : forest.parent? id with
  | none => rw [detach_of_parent?_eq_none hparent]
  | some parent =>
    rw [label, node_detach hparent (lt_size_of_parent? hparent) (h.isLinked.parent_lt_size hparent)]
    rfl

theorem IsForest.label_attach (h : forest.IsForest) {parent child : Nat}
    {place : List Nat → List Nat} (hparent : parent < forest.size) (hchild : child < forest.size)
    (other : Nat) : (forest.attach parent child place).label other = forest.label other := by
  rw [← h.label_detach child other, label, h.node_attach hparent hchild]
  rfl

/-! ### One element -/

/-- Takes an element away and leaves its children in its place. -/
def dissolve (forest : Forest) (id : Nat) : Forest :=
  match forest.parent? id with
  | none => forest.detach id
  | some parent =>
    ((forest.children id).foldl (fun forest child => forest.insertBefore parent child id)
      forest).detach id

/-- What stands in the place of a child after an element is dissolved. -/
def remains (forest : Forest) (id child : Nat) : List Nat :=
  if child = id then forest.children id else [child]

/-- A forest after the children of an element are moved before it. -/
structure IsEmptied (forest forest' : Forest) (id parent : Nat) : Prop where
  /-- It still is a forest. -/
  isForest : forest'.IsForest
  /-- Names and attributes stay as they are. -/
  label_eq : ∀ other, forest'.label other = forest.label other
  /-- The children of the element have its parent, and the others the parents that they had. -/
  parent?_eq : ∀ other, forest'.parent? other =
    if forest.parent? other = some id then some parent else forest.parent? other
  /-- The element has no children any more. -/
  children_self : forest'.children id = []
  /-- They are children of its parent. -/
  children_parent : forest'.children parent =
    (forest.children id).foldl (fun ids child => putBefore child id ids) (forest.children parent)
  /-- The children of all others stay as they are. -/
  children_eq : ∀ other, other ≠ id → other ≠ parent →
    forest'.children other = forest.children other

theorem dissolve_eq {id parent : Nat} (hparent : forest.parent? id = some parent) :
    forest.dissolve id = ((forest.children id).foldl
      (fun forest child => forest.insertBefore parent child id) forest).detach id := by
  rw [dissolve, hparent]

section One

variable {id parent : Nat} (h : forest.IsForest) (hparent : forest.parent? id = some parent)

include h

theorem IsForest.ne_of_parent? (hparent : forest.parent? id = some parent) : id ≠ parent := by
  rintro rfl
  exact h.not_isBelow_self id (.single hparent)

theorem IsForest.notMem_children_self (id : Nat) : id ∉ forest.children id := fun hmem =>
  h.not_isBelow_self id (h.isBelow_of_mem_children hmem)

include hparent

/-- The parent of an element is not at or below its children. -/
theorem IsForest.not_isAtOrBelow_child {child : Nat} (hchild : forest.parent? child = some id) :
    ¬ forest.IsAtOrBelow parent child := fun habove =>
  h.not_isBelow_self child (isBelow_iff.mpr ⟨id, hchild, .head hparent habove⟩)

/-- The children of an element are moved one after the other. -/
theorem IsForest.isEmptied {moved : List Nat} (hmoved : forest.children id = moved) :
    IsEmptied forest (moved.foldl (fun forest child => forest.insertBefore parent child id) forest)
      id parent := by
  induction moved generalizing forest with
  | nil =>
    have hnone : ∀ other, forest.parent? other ≠ some id := by
      intro other hother
      rw [← h.mem_children_iff, hmoved] at hother
      exact not_mem_nil hother
    exact ⟨h, fun _ => rfl, fun other => (if_neg (hnone other)).symm, hmoved, by rw [hmoved]; rfl,
      fun _ _ _ => rfl⟩
  | cons child rest ih =>
    have hchild : forest.parent? child = some id :=
      (h.mem_children_iff child id).mp (hmoved ▸ mem_cons_self)
    have hsize := h.isLinked.parent_lt_size hparent
    have hlt := lt_size_of_parent? hchild
    have hid := h.ne_of_parent? hparent
    -- The child is not found in another place.
    have hkept : ∀ other, other ≠ id →
        (forest.children other).filter (fun below => below ≠ child) = forest.children other :=
      fun other hother => h.filter_children_of_ne fun hsame =>
        hother (Option.some.inj (hchild.symm.trans hsame)).symm
    have hnext : (forest.insertBefore parent child id).IsForest :=
      h.attach hsize hlt (h.not_isAtOrBelow_child hparent hchild) (perm_putBefore child id)
    have hchildren := @IsForest.children_attach forest parent child (putBefore child id) h hsize hlt
    have hparent' : (forest.insertBefore parent child id).parent? id = some parent := by
      rw [insertBefore, h.parent?_attach hsize hlt, if_neg (h.ne_of_parent? hchild).symm, hparent]
    have hrest : (forest.insertBefore parent child id).children id = rest := by
      have hnodup := nodup_cons.mp (hmoved ▸ h.nodup_children id)
      rw [insertBefore, hchildren, if_neg hid, hmoved, filter_cons_of_neg (by simp), filter_eq_self]
      exact fun below hbelow => decide_eq_true fun hsame => hnodup.1 (hsame ▸ hbelow)
    have hemptied := ih hnext hparent' hrest
    constructor
    · exact hemptied.isForest
    · exact fun other => (hemptied.label_eq other).trans (h.label_attach hsize hlt other)
    · intro other
      rw [foldl_cons, hemptied.parent?_eq, insertBefore, h.parent?_attach hsize hlt]
      by_cases hother : other = child
      · rw [if_pos hother, ite_self, hother, if_pos hchild]
      · rw [if_neg hother]
    · exact hemptied.children_self
    · rw [foldl_cons, hemptied.children_parent, hrest, hmoved, foldl_cons, insertBefore, hchildren,
        if_pos rfl, hkept parent hid.symm]
    · intro other hother hother'
      rw [foldl_cons, hemptied.children_eq other hother hother', insertBefore, hchildren,
        if_neg hother', hkept other hother]

/-- **An element may be dissolved.** -/
theorem IsForest.dissolve : (forest.dissolve id).IsForest := by
  rw [dissolve_eq hparent]
  exact (h.isEmptied hparent rfl).isForest.detach id

theorem IsForest.label_dissolve (other : Nat) :
    (forest.dissolve id).label other = forest.label other := by
  have hemptied := h.isEmptied hparent rfl
  rw [dissolve_eq hparent, hemptied.isForest.label_detach, hemptied.label_eq]

theorem IsForest.name_dissolve (other : Nat) :
    ((forest.dissolve id).node other).name = (forest.node other).name :=
  congrArg Prod.fst (h.label_dissolve hparent other)

/-- The children of an element get its parent. -/
theorem IsForest.parent?_dissolve {other : Nat} (hother : other ≠ id) :
    (forest.dissolve id).parent? other =
      if forest.parent? other = some id then some parent else forest.parent? other := by
  have hemptied := h.isEmptied hparent rfl
  rw [dissolve_eq hparent, hemptied.isForest.parent?_detach, if_neg hother, hemptied.parent?_eq]

/-- **The children of an element stay in its place.** -/
theorem IsForest.children_dissolve {other : Nat} (hother : other ≠ id) :
    (forest.dissolve id).children other = (forest.children other).flatMap (forest.remains id) := by
  have hemptied := h.isEmptied hparent rfl
  rw [dissolve_eq hparent, hemptied.isForest.children_detach]
  by_cases hsame : other = parent
  · subst hsame
    rw [hemptied.children_parent]
    exact filter_foldl_putBefore (h.nodup_children other)
      ((h.mem_children_iff id other).mpr hparent) (h.notMem_children_self id)
  · have hne : forest.parent? id ≠ some other := by
      rw [hparent, ne_eq, Option.some.injEq]
      exact Ne.symm hsame
    rw [hemptied.children_eq other hother hsame, h.filter_children_of_ne hne]
    exact (flatMap_of_notMem (fun hmem => hne ((h.mem_children_iff id other).mp hmem)) _).symm

end One

/-! ### The order of the others -/

/-- The loop over pending elements lists nothing else. -/
theorem Lists.eq {pending listed listed' : List Nat} (h : forest.Lists pending listed)
    (h' : forest.Lists pending listed') : listed = listed' := by
  induction h generalizing listed' with
  | done =>
    cases h'
    rfl
  | next _ ih =>
    cases h' with
    | next h' => rw [ih h']

section Order

variable {id parent : Nat} (h : forest.IsForest) (hparent : forest.parent? id = some parent)

include h hparent

/-- What is listed after an element is dissolved is what was listed before, without that one. -/
theorem IsForest.lists_dissolve {pending listed : List Nat} (hlists : forest.Lists pending listed) :
    (forest.dissolve id).Lists (pending.flatMap (forest.remains id))
      (listed.filter fun other => other ≠ id) := by
  induction hlists with
  | done => exact .done
  | @next first pending listed _ ih =>
    rw [flatMap_append] at ih
    by_cases hfirst : first = id
    · -- Its children are pending instead of it.
      subst hfirst
      have hsame : (forest.children first).flatMap (forest.remains first) = forest.children first :=
        flatMap_of_notMem (h.notMem_children_self first) _
      rw [hsame] at ih
      rw [flatMap_cons, remains, if_pos rfl, filter_cons_of_neg (by simp)]
      exact ih
    · rw [← h.children_dissolve hparent hfirst] at ih
      rw [flatMap_cons, remains, if_neg hfirst, filter_cons_of_pos (by simpa using hfirst)]
      exact .next ih

/-- **The elements below another one** are the same and in the same order, without the one that is
dissolved. -/
theorem IsForest.descendants_dissolve {top : Nat} (htop : top ≠ id) :
    (forest.dissolve id).descendants top = (forest.descendants top).filter fun other =>
      other ≠ id := by
  have hlists := ((h.dissolve hparent).isListing_descendants top).lists
  rw [h.children_dissolve hparent htop] at hlists
  exact hlists.eq (h.lists_dissolve hparent (h.isListing_descendants top).lists)

end Order

/-! ### Several elements -/

/-- A forest after some elements are dissolved one after the other, with what stands in the place of
each element. -/
structure IsDissolved (forest forest' : Forest) (gone : List Nat)
    (places : Nat → List Nat) : Prop where
  /-- It still is a forest. -/
  isForest : forest'.IsForest
  /-- Names and attributes stay as they are. -/
  label_eq : ∀ id, forest'.label id = forest.label id
  /-- An element that is gone has left what its children have left, and the others are where they
  were. -/
  places_eq : ∀ id, places id = if id ∈ gone then (forest.children id).flatMap places else [id]
  /-- The children of the others are what stands in their places. -/
  children_eq : ∀ id, id ∉ gone → forest'.children id = (forest.children id).flatMap places
  /-- The elements below the others are those that are not gone, in the same order. -/
  descendants_eq : ∀ id, id ∉ gone →
    forest'.descendants id = (forest.descendants id).filter fun other => other ∉ gone

theorem IsDissolved.refl (h : forest.IsForest) : IsDissolved forest forest [] fun id => [id] where
  isForest := h
  label_eq _ := rfl
  places_eq id := by rw [if_neg not_mem_nil]
  children_eq id _ := (flatMap_singleton' _).symm
  descendants_eq id _ := (filter_eq_self.mpr fun other _ => decide_eq_true not_mem_nil).symm

section Several

variable {gone : List Nat} {places : Nat → List Nat} (h : IsDissolved forest forest' gone places)

include h

/-- **One element more is dissolved.** -/
theorem IsDissolved.dissolve {id parent : Nat} (hid : id ∉ gone)
    (hparent : forest'.parent? id = some parent) :
    IsDissolved forest (forest'.dissolve id) (id :: gone)
      fun other => (places other).flatMap (forest'.remains id) where
  isForest := h.isForest.dissolve hparent
  label_eq other := (h.isForest.label_dissolve hparent other).trans (h.label_eq other)
  places_eq other := by
    rw [← flatMap_assoc, h.places_eq other]
    by_cases hother : other = id
    · have hsame : (forest'.children id).flatMap (forest'.remains id) = forest'.children id :=
        flatMap_of_notMem (h.isForest.notMem_children_self id) _
      rw [hother, if_neg hid, if_pos mem_cons_self, ← h.children_eq id hid, hsame,
        flatMap_singleton, remains, if_pos rfl]
    · by_cases hgone : other ∈ gone
      · rw [if_pos hgone, if_pos (mem_cons_of_mem _ hgone)]
      · have hkept : other ∉ id :: gone := fun hmem => (mem_cons.mp hmem).elim hother hgone
        rw [if_neg hgone, if_neg hkept, flatMap_singleton, remains, if_neg hother]
  children_eq other hother := by
    obtain ⟨hne, hkept⟩ := not_or.mp (mem_cons.not.mp hother)
    rw [h.isForest.children_dissolve hparent hne, h.children_eq other hkept, flatMap_assoc]
  descendants_eq other hother := by
    obtain ⟨hne, hkept⟩ := not_or.mp (mem_cons.not.mp hother)
    rw [h.isForest.descendants_dissolve hparent hne, h.descendants_eq other hkept, filter_filter]
    refine filter_congr fun below _ => ?_
    rw [← Bool.decide_and, decide_eq_decide, mem_cons, not_or]

theorem IsDissolved.name_eq (id : Nat) : (forest'.node id).name = (forest.node id).name :=
  congrArg Prod.fst (h.label_eq id)

theorem IsDissolved.places_of_notMem {id : Nat} (hid : id ∉ gone) : places id = [id] := by
  rw [h.places_eq, if_neg hid]

theorem IsDissolved.places_of_mem {id : Nat} (hid : id ∈ gone) :
    places id = (forest.children id).flatMap places := by
  rw [h.places_eq, if_pos hid]

/-- What is below an element that is not gone is not gone either, and was below it before. -/
theorem IsDissolved.isBelow_iff (hforest : forest.IsForest) {id other : Nat}
    (hother : other ∉ gone) : forest'.IsBelow id other ↔ forest.IsBelow id other ∧ id ∉ gone := by
  rw [← (h.isForest.isListing_descendants other).mem_iff, h.descendants_eq other hother, mem_filter,
    (hforest.isListing_descendants other).mem_iff, decide_eq_true_iff]

/-- The tree of an element that is not gone. -/
theorem IsDissolved.tree_eq {id : Nat} (hid : id ∉ gone) : forest'.tree id =
    ⟨(forest.node id).name, (forest.node id).attributes,
      ((forest.children id).flatMap places).map forest'.tree⟩ := by
  have hlabel := Prod.ext_iff.mp (h.label_eq id)
  rw [h.isForest.tree_eq, h.children_eq id hid]
  exact congrArg₂ (fun name attributes => Tree.mk name attributes _) hlabel.1 hlabel.2

end Several

/-- The trees that stand in the places of some elements, each told from the tree of its element. -/
theorem map_flatMap_places {ids : List Nat} {places : Nat → List Nat} (result : Tree → List Tree)
    (h : ∀ id ∈ ids, (places id).map forest'.tree = result (forest.tree id)) :
    (ids.flatMap places).map forest'.tree = (ids.map forest.tree).flatMap result := by
  rw [map_flatMap, flatMap_map]
  exact flatMap_congr h

/-- The same where one tree stands in the place of each element. -/
theorem map_flatMap_places_singleton {ids : List Nat} {places : Nat → List Nat} (pass : Tree → Tree)
    (h : ∀ id ∈ ids, (places id).map forest'.tree = [pass (forest.tree id)]) :
    (ids.flatMap places).map forest'.tree = (ids.map forest.tree).map pass := by
  rw [map_flatMap_places (fun tree => [pass tree]) h]
  exact map_eq_flatMap.symm

end RelaxSchema.Forest
