import RelaxSchema.Proofs.Catalogue
import RelaxSchema.Proofs.Grammar.Edits

/-!
# Document order

The elements below an element are listed by a loop over a stack of pending elements, which ends only
if the children of the elements lead nowhere in a circle.

* `Forest.IsForest.exists_holds`: from each element of a forest on, the children make up a tree;
* `Forest.Precedes.asymm`: document order, by the elements above and their children, does not go
  both ways;
* `Forest.IsForest.isListing_descendants`: the loop ends, and lists the elements below an element,
  each once and in document order;
* `Forest.IsListing.eq`: nothing else is such a listing;
* `Forest.Reached.isForest_isListing`: all of it after any sequence of edits.

Document order compares two elements below different children of an element above both. No element
is below two children, since of two elements above a third one, one is above the other
(`Forest.IsForest.eq_of_isAtOrBelow`).
-/

namespace RelaxSchema.Forest

open List PlantedTree

variable {forest : Forest}

/-! ### Trees from an element on -/

section IsForest

variable (h : forest.IsForest)

include h

theorem IsForest.isBelow_of_mem_children {id parent : Nat} (hchild : id ∈ forest.children parent) :
    forest.IsBelow id parent :=
  .single ((h.mem_children_iff id parent).mp hchild)

/-- There are fewer elements below a child. -/
theorem IsForest.ncard_lt {id parent : Nat} (hchild : id ∈ forest.children parent) :
    Set.ncard (fun other => forest.IsBelow other id) < Set.ncard fun other =>
      forest.IsBelow other parent := by
  have hbelow := h.isBelow_of_mem_children hchild
  have hfinite : Set.Finite fun other => forest.IsBelow other parent := by
    refine (Set.finite_lt_nat forest.size).subset fun other hother => ?_
    obtain ⟨upper, hupper, -⟩ := isBelow_iff.mp hother
    exact lt_size_of_parent? hupper
  refine Set.ncard_lt_ncard ⟨fun other hother => hother.trans hbelow, fun hsubset => ?_⟩ hfinite
  exact h.not_isBelow_self id (hsubset hbelow)

/-- **A tree stands at each element**, by induction on the number of elements below it. -/
theorem IsForest.exists_holds (id : Nat) :
    ∃ tree : PlantedTree, tree.id = id ∧ forest.Holds (forest.parent? id) tree := by
  induction hcount : Set.ncard (fun other => forest.IsBelow other id) using Nat.strong_induction_on
    generalizing id with
  | _ count ih =>
    subst hcount
    have hchildren : ∀ child ∈ forest.children id,
        ∃ tree : PlantedTree, tree.id = child ∧ forest.Holds (some id) tree := by
      intro child hchild
      obtain ⟨tree, hid, hholds⟩ := ih _ (h.ncard_lt hchild) child rfl
      rw [(h.mem_children_iff child id).mp hchild] at hholds
      exact ⟨tree, hid, hholds⟩
    have : Nonempty PlantedTree := ⟨⟨id, "", .empty, []⟩⟩
    choose! tree hid hholds using hchildren
    have hids : ((forest.children id).map tree).map PlantedTree.id = forest.children id := by
      rw [map_map]
      exact (map_congr_left hid).trans (map_id _)
    refine ⟨⟨id, (forest.node id).name, (forest.node id).attributes, (forest.children id).map tree⟩,
      rfl, .intro ?_ (forall_mem_map.mpr hholds)⟩
    dsimp only
    rw [hids]
    rfl

end IsForest

theorem Holds.sublist_children {parent : Option Nat} {tree : PlantedTree}
    (h : forest.Holds parent tree) : tree.children.map PlantedTree.id <+ forest.children tree.id :=
  h.children_eq ▸ .refl _

theorem Holds.isAtOrBelow_of_mem {parent : Option Nat} {tree : PlantedTree}
    (h : forest.Holds parent tree) : ∀ id ∈ ids [tree], forest.IsAtOrBelow id tree.id := by
  induction h with
  | @intro parent tree hnode hchildren ih =>
    intro id hid
    rw [ids_singleton, mem_cons] at hid
    rcases hid with rfl | hid
    · exact .refl
    · obtain ⟨child, hchild, hmem⟩ := mem_ids.mp hid
      exact (ih child hchild id hmem).tail (hchildren child hchild).parent?_eq

theorem Holds.isBelow_of_mem {parent : Option Nat} {tree : PlantedTree}
    (h : forest.Holds parent tree) : ∀ id ∈ ids tree.children, forest.IsBelow id tree.id := by
  intro id hid
  obtain ⟨child, hchild, hmem⟩ := mem_ids.mp hid
  have hchild := h.forall_children child hchild
  exact Relation.TransGen.tail'_iff.mpr ⟨child.id, hchild.isAtOrBelow_of_mem id hmem,
    hchild.parent?_eq⟩

/-- What is at or below an element is in its tree. -/
theorem Holds.mem_ids_iff (hlinked : forest.IsLinked) {parent : Option Nat} {tree : PlantedTree}
    (h : forest.Holds parent tree) {id : Nat} :
    id ∈ ids [tree] ↔ forest.IsAtOrBelow id tree.id := by
  refine ⟨h.isAtOrBelow_of_mem id, fun hbelow => ?_⟩
  induction hbelow using Relation.ReflTransGen.head_induction_on with
  | refl => exact ids_singleton tree ▸ mem_cons_self
  | @head id upper hparent _ ih =>
    obtain ⟨other, hother, rfl⟩ := mem_map.mp ih
    rw [preorderAll_singleton] at hother
    obtain ⟨_, hholds⟩ := h.forall_preorder other hother
    have hchild := hlinked id other.id hparent
    rw [hholds.children_eq] at hchild
    refine (sublist_ids_of_mem_preorder hother).subset ?_
    exact ids_singleton other ▸ mem_cons_of_mem _ ((sublist_map_id _).subset hchild)

/-! ### The order -/

/-- An element comes before another one in document order: the other one is below it, or they are at
or below two children of one element, in this order. -/
inductive Precedes (forest : Forest) : Nat → Nat → Prop
  /-- The first one is above the other. -/
  | above {id other : Nat} : forest.IsBelow other id → forest.Precedes id other
  /-- They are in the trees of two children. -/
  | beside {parent left right id other : Nat} : [left, right] <+ forest.children parent →
      forest.IsAtOrBelow id left → forest.IsAtOrBelow other right → forest.Precedes id other

/-- Two elements above a third one are the same, or one is below the other. -/
theorem IsAtOrBelow.trichotomy {id first second : Nat} (hfirst : forest.IsAtOrBelow id first)
    (hsecond : forest.IsAtOrBelow id second) :
    first = second ∨ forest.IsBelow first second ∨ forest.IsBelow second first := by
  rcases hfirst.total hsecond with hbelow | hbelow
  · exact (isAtOrBelow_iff.mp hbelow).imp_right Or.inl
  · exact (isAtOrBelow_iff.mp hbelow).imp Eq.symm Or.inr

section Precedes

variable (h : forest.IsForest)

include h

/-- No element is at or below two children of one element. -/
theorem IsForest.eq_of_isAtOrBelow {id left right parent : Nat}
    (hleft : left ∈ forest.children parent) (hright : right ∈ forest.children parent)
    (hidleft : forest.IsAtOrBelow id left) (hidright : forest.IsAtOrBelow id right) :
    left = right := by
  rw [h.mem_children_iff] at hleft hright
  have hsibling : ∀ {first second}, forest.parent? first = some parent →
      forest.parent? second = some parent → forest.IsAtOrBelow first second → first = second := by
    intro first second hfirst hsecond hbelow
    refine (isAtOrBelow_iff.mp hbelow).resolve_right fun hbelow => ?_
    obtain ⟨upper, hupper, habove⟩ := isBelow_iff.mp hbelow
    obtain rfl : parent = upper := Option.some.inj (hfirst.symm.trans hupper)
    exact h.not_isBelow_self second (isBelow_iff.mpr ⟨parent, hsecond, habove⟩)
  rcases hidleft.total hidright with hbelow | hbelow
  · exact hsibling hleft hright hbelow
  · exact (hsibling hright hleft hbelow).symm

/-- What is in the tree of a child is not in that of a later one. -/
theorem IsForest.not_isAtOrBelow_of_sublist {id left right parent : Nat}
    (hsublist : [left, right] <+ forest.children parent) (hleft : forest.IsAtOrBelow id left) :
    ¬ forest.IsAtOrBelow id right := by
  intro hright
  have hmem := hsublist.subset
  have hsame :=
    h.eq_of_isAtOrBelow (hmem mem_cons_self) (hmem (mem_cons_of_mem _ mem_cons_self)) hleft hright
  have hnodup := hsublist.nodup (h.nodup_children parent)
  exact (nodup_cons.mp hnodup).1 (hsame ▸ mem_cons_self)

theorem IsForest.isAtOrBelow_parent {id other parent left right : Nat}
    (hsublist : [left, right] <+ forest.children parent) (hleft : forest.IsAtOrBelow id left)
    (hright : forest.IsAtOrBelow other right) :
    forest.IsAtOrBelow id parent ∧ forest.IsAtOrBelow other parent := by
  have hmem := hsublist.subset
  have hup : ∀ child ∈ [left, right], forest.IsAtOrBelow child parent := fun child hchild =>
    (h.isBelow_of_mem_children (hmem hchild)).to_reflTransGen
  exact ⟨hleft.trans (hup left mem_cons_self),
    hright.trans (hup right (mem_cons_of_mem _ mem_cons_self))⟩

theorem Precedes.ne {id other : Nat} (hprecedes : forest.Precedes id other) : id ≠ other := by
  rintro rfl
  cases hprecedes with
  | above hbelow => exact h.not_isBelow_self id hbelow
  | beside hsublist hleft hright => exact h.not_isAtOrBelow_of_sublist hsublist hleft hright

/-- Two elements below one element are not in the trees of two children of an element above that. -/
theorem IsForest.not_beside {id other parent upper left right : Nat}
    (hid : forest.IsAtOrBelow id parent) (hother : forest.IsAtOrBelow other parent)
    (hbelow : forest.IsBelow parent upper) (hsublist : [left, right] <+ forest.children upper)
    (hleft : forest.IsAtOrBelow id left) : ¬ forest.IsAtOrBelow other right := by
  obtain ⟨child, hchild, hupper⟩ := Relation.TransGen.tail'_iff.mp hbelow
  rw [HasParent, ← h.mem_children_iff] at hupper
  have hmem := hsublist.subset
  have hsame : child = left :=
    h.eq_of_isAtOrBelow hupper (hmem mem_cons_self) (hid.trans hchild) hleft
  exact h.not_isAtOrBelow_of_sublist hsublist (hsame ▸ hother.trans hchild)

/-- **Document order does not go both ways.** -/
theorem Precedes.asymm {id other : Nat} (hprecedes : forest.Precedes id other) :
    ¬ forest.Precedes other id := by
  intro hprecedes'
  cases hprecedes with
  | above hbelow =>
    cases hprecedes' with
    | above hbelow' => exact h.not_isBelow_self id (hbelow'.trans hbelow)
    | beside hsublist hleft hright =>
      exact h.not_isAtOrBelow_of_sublist hsublist hleft (hbelow.to_reflTransGen.trans hright)
  | @beside parent left right _ _ hsublist hleft hright =>
    cases hprecedes' with
    | above hbelow =>
      exact h.not_isAtOrBelow_of_sublist hsublist hleft (hbelow.to_reflTransGen.trans hright)
    | @beside parent' left' right' _ _ hsublist' hleft' hright' =>
      -- The two elements above both are one, or one of them is above the other.
      obtain ⟨hid, hother⟩ := h.isAtOrBelow_parent hsublist hleft hright
      obtain ⟨hother', hid'⟩ := h.isAtOrBelow_parent hsublist' hleft' hright'
      rcases hid.trichotomy hid' with rfl | hbelow | hbelow
      · have hmem := hsublist.subset
        have hmem' := hsublist'.subset
        have hsame : left = right' :=
          h.eq_of_isAtOrBelow (hmem mem_cons_self)
            (hmem' (mem_cons_of_mem _ mem_cons_self)) hleft hright'
        have hsame' : right = left' :=
          h.eq_of_isAtOrBelow (hmem (mem_cons_of_mem _ mem_cons_self))
            (hmem' mem_cons_self) hright hleft'
        subst hsame hsame'
        exact not_sublist_swap (h.nodup_children parent) hsublist hsublist'
      · exact h.not_beside hother hid hbelow hsublist' hleft' hright'
      · exact h.not_beside hid' hother' hbelow hsublist hleft hright

end Precedes

/-- The elements of trees that are children of one element, in order, are in document order. -/
theorem Holds.pairwise_precedes {trees : List PlantedTree} {parent : Nat}
    (hsublist : trees.map PlantedTree.id <+ forest.children parent)
    (hholds : ∀ tree ∈ trees, forest.Holds (some parent) tree) :
    (ids trees).Pairwise forest.Precedes := by
  induction trees using PlantedTree.induction generalizing parent with
  | nil => exact .nil
  | cons tree rest ihchildren ihrest =>
    obtain ⟨htree, hrest⟩ := forall_mem_cons.mp hholds
    have hbelow := htree.isBelow_of_mem
    have hbeside : ∀ id, forest.IsAtOrBelow id tree.id → ∀ other ∈ ids rest,
        forest.Precedes id other := by
      intro id hid other hother
      obtain ⟨right, hright, hmem⟩ := mem_ids.mp hother
      have hpair : [tree.id, right.id] <+ (tree :: rest).map PlantedTree.id :=
        (singleton_sublist.mpr (mem_map_of_mem hright)).cons_cons tree.id
      exact .beside (hpair.trans hsublist) hid ((hrest right hright).isAtOrBelow_of_mem other hmem)
    have hlater : (ids rest).Pairwise forest.Precedes :=
      ihrest ((sublist_cons_self tree.id _).trans hsublist) hrest
    have hinner : (ids tree.children).Pairwise forest.Precedes :=
      ihchildren htree.sublist_children htree.forall_children
    rw [ids_cons, pairwise_cons, pairwise_append, forall_mem_append]
    refine ⟨⟨fun other hother => .above (hbelow other hother), hbeside tree.id .refl⟩,
      hinner, hlater, ?_⟩
    exact fun id hid => hbeside id (hbelow id hid).to_reflTransGen

/-! ### The listing -/

/-- The loop over pending elements ends and lists some elements: the first pending element is
listed, and its children are looked at before the others. -/
inductive Lists (forest : Forest) : List Nat → List Nat → Prop
  /-- No element is pending. -/
  | done : forest.Lists [] []
  /-- The first element and what is listed after it. -/
  | next {id : Nat} {pending listed : List Nat} :
      forest.Lists (forest.children id ++ pending) listed →
        forest.Lists (id :: pending) (id :: listed)

theorem Lists.append {pending pending' listed listed' : List Nat} (h : forest.Lists pending listed)
    (h' : forest.Lists pending' listed') :
    forest.Lists (pending ++ pending') (listed ++ listed') := by
  induction h with
  | done => exact h'
  | next _ ih => exact .next (append_assoc _ _ _ ▸ ih)

/-- Trees that stand in a forest are listed to their ends. -/
theorem Holds.lists {trees : List PlantedTree}
    (h : ∀ tree ∈ trees, ∃ parent, forest.Holds parent tree) :
    forest.Lists (trees.map PlantedTree.id) (ids trees) := by
  induction trees using PlantedTree.induction with
  | nil => exact .done
  | cons tree rest ihchildren ihrest =>
    obtain ⟨⟨parent, htree⟩, hrest⟩ := forall_mem_cons.mp h
    have hchildren := ihchildren fun child hchild => ⟨_, htree.forall_children child hchild⟩
    rw [map_cons, ids_cons]
    refine .next ?_
    rw [htree.children_eq]
    exact hchildren.append (ihrest hrest)

/-- A list of all elements below an element in document order, as the loop gives it. -/
structure IsListing (forest : Forest) (id : Nat) (listed : List Nat) : Prop where
  /-- The loop over the children of the element ends with the list. -/
  lists : forest.Lists (forest.children id) listed
  /-- The elements of the list are those whose way up passes through the element. -/
  mem_iff : ∀ other, other ∈ listed ↔ forest.IsBelow other id
  /-- No element comes twice. -/
  nodup : listed.Nodup
  /-- They are in document order. -/
  pairwise : listed.Pairwise forest.Precedes

/-- There is no other listing. -/
theorem IsListing.eq (h : forest.IsForest) {id : Nat} {listed listed' : List Nat}
    (hlisted : forest.IsListing id listed) (hlisted' : forest.IsListing id listed') :
    listed = listed' := by
  have hperm : listed ~ listed' := by
    rw [perm_ext_iff_of_nodup hlisted.nodup hlisted'.nodup]
    exact fun other => (hlisted.mem_iff other).trans (hlisted'.mem_iff other).symm
  refine hperm.eq_of_pairwise ?_ hlisted.pairwise hlisted'.pairwise
  exact fun first second _ _ hfirst hsecond => absurd hsecond (hfirst.asymm h)

section Listing

variable {parent : Option Nat} {tree : PlantedTree} (h : forest.IsForest)
    (hholds : forest.Holds parent tree)

include hholds

theorem Holds.pairwise_ids_children : (ids tree.children).Pairwise forest.Precedes :=
  Holds.pairwise_precedes hholds.sublist_children hholds.forall_children

include h

theorem IsForest.nodup_ids_children : (ids tree.children).Nodup :=
  hholds.pairwise_ids_children.imp fun hprecedes => hprecedes.ne h

/-- There are not more elements below one than elements. -/
theorem IsForest.length_preorderAll_le : (preorderAll tree.children).length ≤ forest.size := by
  have hsubset : ids tree.children ⊆ range forest.size := by
    intro other hother
    obtain ⟨parent, hparent⟩ := hholds.exists_parent hother
    exact mem_range.mpr (lt_size_of_parent? hparent)
  have hle := (subperm_of_subset (h.nodup_ids_children hholds) hsubset).length_le
  rwa [ids, length_map, length_range] at hle

/-- The loop lists the tree. -/
theorem IsForest.descendants_eq_ids : forest.descendants tree.id = ids tree.children := by
  rw [descendants, hholds.children_eq]
  exact preorder_map_id (fun child hchild => ⟨_, hholds.forall_children child hchild⟩)
    (h.length_preorderAll_le hholds)

end Listing

/-- **The loop ends**, and it lists the elements below an element. -/
theorem IsForest.isListing_descendants (h : forest.IsForest) (id : Nat) :
    forest.IsListing id (forest.descendants id) := by
  obtain ⟨tree, rfl, hholds⟩ := h.exists_holds id
  have hstand : ∀ child ∈ tree.children, ∃ parent, forest.Holds parent child := fun child hchild =>
    ⟨_, hholds.forall_children child hchild⟩
  rw [h.descendants_eq_ids hholds]
  refine ⟨hholds.children_eq ▸ Holds.lists hstand, fun other => ?_, h.nodup_ids_children hholds,
    hholds.pairwise_ids_children⟩
  refine ⟨hholds.isBelow_of_mem other, fun hbelow => ?_⟩
  have hmem := (hholds.mem_ids_iff h.isLinked).mpr hbelow.to_reflTransGen
  rw [ids_singleton, mem_cons] at hmem
  exact hmem.resolve_left fun hsame => h.not_isBelow_self tree.id (hsame ▸ hbelow)

/-- **Whatever edits make of an element or a document**, parents and children agree, no element
comes twice among all children, and the elements below each one are listed. -/
theorem Reached.isForest_isListing (h : forest.Reached) :
    forest.IsForest ∧ ((range forest.size).flatMap forest.children).Nodup ∧
      ∀ id, forest.IsListing id (forest.descendants id) :=
  ⟨h.isForest, h.isForest.nodup_flatMap_children, h.isForest.isListing_descendants⟩

/-- Above a child of an element without parent there is only that one. -/
theorem IsBelow.eq_of_root {id upper ancestor : Nat} (h : forest.IsBelow id ancestor)
    (hparent : forest.parent? id = some upper) (hroot : forest.parent? upper = none) :
    ancestor = upper := by
  obtain ⟨parent, hother, habove⟩ := isBelow_iff.mp h
  obtain rfl : upper = parent := Option.some.inj (hparent.symm.trans hother)
  refine ((isAtOrBelow_iff.mp habove).resolve_right fun hbelow => ?_).symm
  obtain ⟨_, hnone, -⟩ := isBelow_iff.mp hbelow
  exact absurd (hroot.symm.trans hnone) (by simp)

/-- A definition with an element, and an empty start. -/
def sample : Forest :=
  ofTree
    (.plain "grammar" [.plain "define" [.plain "element" [.plain "text" []]], .plain "start" []])

/-- The element takes the place of the definition that it is in, and then the start moves into
it. -/
def rearranged : Forest := (sample.edit (.replace 1 2)).edit (.insertBefore 2 4 3)

theorem rearranged_isForest_isListing : rearranged.Reached ∧ rearranged.descendants 0 = [2, 4, 3] ∧
    rearranged.IsForest ∧ ((range rearranged.size).flatMap rearranged.children).Nodup ∧
      ∀ id, rearranged.IsListing id (rearranged.descendants id) := by
  have hreplace : sample.Allows (.replace 1 2) := by
    refine ⟨by decide, by decide, fun hbelow => ?_⟩
    have hparent : sample.parent? 1 = some 0 := by decide
    exact absurd (hbelow.eq_of_root hparent (by decide)) (by decide)
  have hinsert : (sample.edit (.replace 1 2)).Allows (.insertBefore 2 4 3) := by
    refine ⟨by decide, by decide, fun hbelow => ?_⟩
    have hbelow := (isAtOrBelow_iff.mp hbelow).resolve_left (by decide)
    have hparent : (sample.edit (.replace 1 2)).parent? 2 = some 0 := by decide
    exact absurd (hbelow.eq_of_root hparent (by decide)) (by decide)
  have hreached : rearranged.Reached := (Reached.ofTree _).edit hreplace |>.edit hinsert
  exact ⟨hreached, by decide, hreached.isForest_isListing⟩

end RelaxSchema.Forest
