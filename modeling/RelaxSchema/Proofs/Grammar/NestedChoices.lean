import RelaxSchema.Proofs.Grammar.Dissolving
import RelaxSchema.Proofs.Grammar.NormalNodes

/-!
# Choices in choices

The first pass of the normal form as edits of a forest: a loop that looks for a choice in a choice,
dissolves it and starts anew, in the forest that it has changed.

* `Forest.IsForest.flattensTo_flattenChoices`: the loop ends, after not more steps than there are
  choices;
* `Forest.FlattensTo.exists_isDissolved`: it has dissolved the choices that were in choices before
  it, and no others;
* `Forest.IsDissolved.map_tree_flattenChoices`: so the tree that it leaves is the one that the pass
  makes of the tree that was there.

A choice that stands in a choice stays in one when another such choice is dissolved, since it comes
into a choice again.
-/

namespace RelaxSchema.Forest

open List

variable {forest forest' : Forest} {container : Nat}

/-! ### The loop -/

/-- The first choice below an element that is a child of a choice. -/
def nestedChoice? (forest : Forest) (container : Nat) : Option Nat :=
  (forest.findAll container "choice").find? fun choice =>
    (forest.parent? choice).any fun parent => forest.isNamed parent "choice"

/-- The loop that dissolves choices in choices below an element, as long as there are any, ends with
a forest. -/
inductive FlattensTo (container : Nat) : Forest → Forest → Prop
  /-- There is none. -/
  | done {forest : Forest} : forest.nestedChoice? container = none →
      FlattensTo container forest forest
  /-- The first one is dissolved, and the loop goes on. -/
  | next {forest forest' : Forest} {nested : Nat} : forest.nestedChoice? container = some nested →
      FlattensTo container (forest.dissolve nested) forest' → FlattensTo container forest forest'

/-- The forest after at most some number of steps of the loop. -/
def flattenWithin (container : Nat) : Nat → Forest → Forest
  | 0, forest => forest
  | steps + 1, forest =>
    match forest.nestedChoice? container with
    | none => forest
    | some nested => flattenWithin container steps (forest.dissolve nested)

/-- Dissolves the choices in choices below an element. Each step takes a choice away, so there are
not more steps than choices. -/
def flattenChoices (forest : Forest) (container : Nat) : Forest :=
  flattenWithin container (forest.findAll container "choice").length forest

/-- A choice that is a child of a choice. -/
def IsNested (forest : Forest) (id : Nat) : Prop :=
  (forest.node id).name = "choice" ∧
    ∃ parent, forest.parent? id = some parent ∧ (forest.node parent).name = "choice"

theorem IsForest.mem_findAll_iff (h : forest.IsForest) {id : Nat} {name : String} :
    id ∈ forest.findAll container name ↔
      forest.IsBelow id container ∧ (forest.node id).name = name := by
  rw [findAll, mem_filter, (h.isListing_descendants container).mem_iff, isNamed, decide_eq_true_iff]

theorem IsForest.nodup_findAll (h : forest.IsForest) (container : Nat) (name : String) :
    (forest.findAll container name).Nodup :=
  (h.isListing_descendants container).nodup.filter _

theorem any_isNamed_parent_iff {id : Nat} {name : String} :
    ((forest.parent? id).any fun parent => forest.isNamed parent name) = true ↔
      ∃ parent, forest.parent? id = some parent ∧ (forest.node parent).name = name := by
  rw [Option.any_eq_true]
  simp only [isNamed, decide_eq_true_iff]

theorem IsForest.isNested_of_nestedChoice? (h : forest.IsForest) {nested : Nat}
    (hnested : forest.nestedChoice? container = some nested) :
    forest.IsBelow nested container ∧ forest.IsNested nested := by
  rw [nestedChoice?] at hnested
  obtain ⟨hbelow, hname⟩ := h.mem_findAll_iff.mp (mem_of_find?_eq_some hnested)
  have hparent := find?_some hnested
  exact ⟨hbelow, hname, any_isNamed_parent_iff.mp hparent⟩

theorem IsForest.not_isNested_of_nestedChoice? (h : forest.IsForest)
    (hnone : forest.nestedChoice? container = none) {id : Nat}
    (hbelow : forest.IsBelow id container) : ¬ forest.IsNested id := by
  rintro ⟨hname, hparent⟩
  refine find?_eq_none.mp hnone id (h.mem_findAll_iff.mpr ⟨hbelow, hname⟩) ?_
  exact any_isNamed_parent_iff.mpr hparent

/-- A step of the loop leaves fewer choices. -/
theorem IsForest.length_findAll_dissolve (h : forest.IsForest) {nested : Nat}
    (hnested : forest.IsNested nested) (hbelow : forest.IsBelow nested container) :
    ((forest.dissolve nested).findAll container "choice").length <
      (forest.findAll container "choice").length := by
  obtain ⟨hname, parent, hparent, -⟩ := hnested
  have hne : container ≠ nested := by
    rintro rfl
    exact h.not_isBelow_self container hbelow
  have hnamed : ∀ id, (forest.dissolve nested).isNamed id "choice" =
      forest.isNamed id "choice" := by
    intro id
    rw [isNamed, isNamed, h.name_dissolve hparent]
  rw [findAll, h.descendants_dissolve hparent hne, filter_congr fun id _ => hnamed id, filter_comm]
  exact length_filter_lt_length_iff_exists.mpr
    ⟨nested, h.mem_findAll_iff.mpr ⟨hbelow, hname⟩, by simp⟩

/-- **The loop over choices in choices ends**, with the number of choices as measure. -/
theorem IsForest.flattensTo_flattenWithin {steps : Nat} (h : forest.IsForest)
    (hsteps : (forest.findAll container "choice").length ≤ steps) :
    FlattensTo container forest (flattenWithin container steps forest) := by
  induction steps generalizing forest with
  | zero =>
    refine .done ?_
    rw [nestedChoice?, eq_nil_of_length_eq_zero (Nat.le_zero.mp hsteps)]
    rfl
  | succ steps ih =>
    rw [flattenWithin]
    cases hnext : forest.nestedChoice? container with
    | none => exact .done hnext
    | some nested =>
      obtain ⟨hbelow, hnested⟩ := h.isNested_of_nestedChoice? hnext
      have hlt := h.length_findAll_dissolve hnested hbelow
      obtain ⟨parent, hparent, -⟩ := hnested.2
      exact .next hnext (ih (h.dissolve hparent) (by omega))

theorem IsForest.flattensTo_flattenChoices (h : forest.IsForest) (container : Nat) :
    FlattensTo container forest (forest.flattenChoices container) :=
  h.flattensTo_flattenWithin le_rfl

/-- The loop ends with one forest only. -/
theorem FlattensTo.eq {other : Forest} (h : FlattensTo container forest forest')
    (h' : FlattensTo container forest other) : forest' = other := by
  induction h generalizing other with
  | done hnone =>
    cases h' with
    | done => rfl
    | next hsome => cases hnone.symm.trans hsome
  | next hsome _ ih =>
    cases h' with
    | done hnone => cases hnone.symm.trans hsome
    | next hsome' hrest =>
      obtain rfl := Option.some.inj (hsome.symm.trans hsome')
      exact ih hrest

/-- The others stay in choices, or out of them, when a choice in a choice is dissolved. -/
theorem IsForest.isNested_dissolve_iff (h : forest.IsForest) {nested id : Nat}
    (hnested : forest.IsNested nested) (hid : id ≠ nested) :
    (forest.dissolve nested).IsNested id ↔ forest.IsNested id := by
  obtain ⟨hname, parent, hparent, hparentName⟩ := hnested
  have hnames := h.name_dissolve hparent
  rw [IsNested, IsNested, hnames, h.parent?_dissolve hparent hid]
  refine and_congr_right fun _ => ?_
  split
  · -- A child of the one that is dissolved comes into the choice around it.
    rename_i hchild
    refine iff_of_true ⟨parent, rfl, (hnames parent).trans hparentName⟩ ⟨nested, hchild, hname⟩
  · exact exists_congr fun other => and_congr_right fun _ => by rw [hnames]

/-- The loop dissolves the choices in choices. -/
theorem FlattensTo.exists_isDissolved {start : Forest}
    (hflattens : FlattensTo container forest forest') (hstart : start.IsForest)
    (hcontainer : (start.node container).name ≠ "choice") {gone : List Nat}
    {places : Nat → List Nat} (h : IsDissolved start forest gone places)
    (hgone : ∀ id ∈ gone, start.IsBelow id container ∧ start.IsNested id)
    (hothers : ∀ id, id ∉ gone → (forest.IsNested id ↔ start.IsNested id)) :
    ∃ gone places, IsDissolved start forest' gone places ∧
      (∀ id ∈ gone, start.IsBelow id container ∧ start.IsNested id) ∧
      ∀ id, start.IsBelow id container → start.IsNested id → id ∈ gone := by
  induction hflattens generalizing gone places with
  | done hnone =>
    refine ⟨gone, places, h, hgone, fun id hbelow hnested => ?_⟩
    by_contra hid
    have hkept : container ∉ gone := fun hmem => hcontainer (hgone container hmem).2.1
    exact h.isForest.not_isNested_of_nestedChoice? hnone
      ((h.isBelow_iff hstart hkept).mpr ⟨hbelow, hid⟩) ((hothers id hid).mpr hnested)
  | @next forest forest' nested hsome _ ih =>
    obtain ⟨hbelow, hnested⟩ := h.isForest.isNested_of_nestedChoice? hsome
    have hkept : container ∉ gone := fun hmem => hcontainer (hgone container hmem).2.1
    obtain ⟨hbelow, hid⟩ := (h.isBelow_iff hstart hkept).mp hbelow
    obtain ⟨parent, hparent, -⟩ := hnested.2
    refine ih (h.dissolve hid hparent) ?_ fun id hne => ?_
    · rw [forall_mem_cons]
      exact ⟨⟨hbelow, (hothers nested hid).mp hnested⟩, hgone⟩
    · obtain ⟨hne, hmem⟩ := not_or.mp (mem_cons.not.mp hne)
      exact (h.isForest.isNested_dissolve_iff hnested hne).trans (hothers id hmem)

theorem IsForest.flattenChoices_tree (h : forest.IsForest) (id : Nat) :
    NormalForm.flattenChoices (forest.tree id) = ⟨(forest.node id).name,
      (forest.node id).attributes, (NormalForm.flattenChoices (forest.tree id)).children⟩ := by
  rw [h.tree_eq id, NormalForm.flattenChoices]

/-- The tree after the loop. -/
theorem IsDissolved.map_tree_flattenChoices {gone : List Nat} {places : Nat → List Nat}
    (h : IsDissolved forest forest' gone places) (hforest : forest.IsForest)
    (hgone : ∀ id ∈ gone, forest.IsNested id)
    (hnested : ∀ id, forest.IsBelow id container → forest.IsNested id → id ∈ gone) (id : Nat)
    (hid : forest.IsAtOrBelow id container) :
    ((forest.children id).flatMap places).map forest'.tree =
      (NormalForm.flattenChoices (forest.tree id)).children := by
  induction id using hforest.induction with
  | hstep id ih =>
    have hplaces : ∀ child ∈ forest.children id, (places child).map forest'.tree =
        if (forest.node id).name = "choice"
        then NormalForm.spliceChoice (NormalForm.flattenChoices (forest.tree child))
        else [NormalForm.flattenChoices (forest.tree child)] := by
      intro child hchild
      have hparent := (hforest.mem_children_iff child id).mp hchild
      have hbelow : forest.IsBelow child container := Forest.isBelow_iff.mpr ⟨id, hparent, hid⟩
      have hchildren := ih child hchild hbelow.to_reflTransGen
      have hflat := hforest.flattenChoices_tree child
      by_cases hmem : child ∈ gone
      · obtain ⟨hname, parent, hparent', hparentName⟩ := hgone child hmem
        obtain rfl := Option.some.inj (hparent'.symm.trans hparent)
        rw [h.places_of_mem hmem, hchildren, if_pos hparentName, hflat,
          NormalForm.spliceChoice, if_pos hname]
      · have htree : forest'.tree child = NormalForm.flattenChoices (forest.tree child) := by
          rw [h.tree_eq hmem, hchildren, ← hflat]
        rw [h.places_of_notMem hmem, map_singleton, htree]
        split
        · rename_i hname
          have hother : (forest.node child).name ≠ "choice" := fun hchoice =>
            hmem (hnested child hbelow ⟨hchoice, id, hparent, hname⟩)
          rw [hflat, NormalForm.spliceChoice, if_neg hother]
        · rfl
    rw [hforest.tree_eq id, NormalForm.flattenChoices, NormalForm.flattenChoicesAll_eq_map]
    split
    · rename_i hname
      simp only [if_pos hname] at hplaces
      rw [map_flatMap_places
        (fun tree => NormalForm.spliceChoice (NormalForm.flattenChoices tree)) hplaces]
      exact (flatMap_map ..).symm
    · rename_i hname
      simp only [if_neg hname] at hplaces
      exact map_flatMap_places_singleton NormalForm.flattenChoices hplaces

end RelaxSchema.Forest
