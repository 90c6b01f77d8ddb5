import RelaxSchema.Proofs.Grammar.Frame
import RelaxSchema.Proofs.Grammar.NestedChoices
import RelaxSchema.Proofs.Grammar.Sweeps

/-!
# The normal form in place

The four passes of the normal form as edits of a forest, put together.

* `Forest.IsDissolved.keepsContent`: nothing but wrappers goes away when these are dissolved;
* `Forest.IsForest.keepsContent_normaliseContent`: the loop over choices in choices ends, and after
  all passes the elements that are no choices or repetitions are in the same order and below the
  same ones as before, and the trees in the container are the normal form of those that were there.
-/

namespace RelaxSchema.Forest

open List
open NormalForm (isWrapper isSkippable isRepetition)

variable {forest forest' : Forest} {container : Nat}

/-! ### Wrappers -/

theorem isWrapper_choice {name : String} (h : name = "choice") : isWrapper name = true := by
  rw [isWrapper, h]
  rfl

theorem isWrapper_of_isRepetition {name : String} (h : isRepetition name = true) :
    isWrapper name = true := by
  rw [isWrapper, h, Bool.or_true]

theorem isWrapper_of_isSkippable {name : String} (h : isSkippable name = true) :
    isWrapper name = true :=
  isWrapper_of_isRepetition (by rw [isRepetition, h, Bool.true_or])

/-- What makes a wrapper is not found of an element that is none. -/
theorem eq_false_of_isWrapper {name : String} {kind : Bool} (h : isWrapper name = false)
    (hkind : kind = true → isWrapper name = true) : kind = false :=
  Bool.eq_false_iff.mpr fun hsome => Bool.false_ne_true (h.symm.trans (hkind hsome))

/-! ### What is kept -/

/-- The elements below an element in document order, without choices and repetitions. -/
def content (forest : Forest) (id : Nat) : List Nat :=
  (forest.descendants id).filter fun other => !isWrapper (forest.node other).name

/-- Edits of the content of a container have changed nothing but choices and repetitions in it. -/
structure KeepsContent (container : Nat) (forest forest' : Forest) : Prop where
  /-- Parents and children still agree, and no element is below itself. -/
  isForest : forest'.IsForest
  /-- Names and attributes stay as they are. -/
  label_eq : ∀ id, forest'.label id = forest.label id
  /-- Below an element that may not be dissolved there are the same elements in the same order, if
  choices and repetitions are not counted. -/
  content_eq : ∀ id, (isWrapper (forest.node id).name = true → ¬ forest.IsBelow id container) →
    forest'.content id = forest.content id
  /-- Elements that are no choices or repetitions are below the same ones of this kind. -/
  isBelow_iff : ∀ id other, isWrapper (forest.node id).name = false →
    isWrapper (forest.node other).name = false →
      (forest'.IsBelow id other ↔ forest.IsBelow id other)
  /-- Nothing comes into the container. -/
  isBelow_of : ∀ id, forest'.IsBelow id container → forest.IsBelow id container

theorem KeepsContent.refl (h : forest.IsForest) : KeepsContent container forest forest :=
  ⟨h, fun _ => rfl, fun _ _ => rfl, fun _ _ _ _ => Iff.rfl, fun _ hbelow => hbelow⟩

theorem KeepsContent.trans {middle : Forest} (h : KeepsContent container forest middle)
    (h' : KeepsContent container middle forest') : KeepsContent container forest forest' where
  isForest := h'.isForest
  label_eq id := (h'.label_eq id).trans (h.label_eq id)
  content_eq id hid := by
    have hname : (middle.node id).name = (forest.node id).name := congrArg Prod.fst (h.label_eq id)
    refine (h'.content_eq id fun hwrapper hbelow => ?_).trans (h.content_eq id hid)
    exact hid (hname ▸ hwrapper) (h.isBelow_of id hbelow)
  isBelow_iff id other hid hother := by
    have hname : ∀ id, (middle.node id).name = (forest.node id).name := fun id =>
      congrArg Prod.fst (h.label_eq id)
    exact (h'.isBelow_iff id other ((hname id).symm ▸ hid) ((hname other).symm ▸ hother)).trans
      (h.isBelow_iff id other hid hother)
  isBelow_of id hbelow := h.isBelow_of id (h'.isBelow_of id hbelow)

/-- Wrappers in the container may be dissolved. -/
theorem IsDissolved.keepsContent {gone : List Nat} {places : Nat → List Nat}
    (h : IsDissolved forest forest' gone places) (hforest : forest.IsForest)
    (hgone : ∀ id ∈ gone, forest.IsBelow id container ∧ isWrapper (forest.node id).name = true) :
    KeepsContent container forest forest' := by
  have hkept : ∀ id, isWrapper (forest.node id).name = false → id ∉ gone := fun id hname hmem =>
    Bool.false_ne_true (hname.symm.trans (hgone id hmem).2)
  have hcontainer : container ∉ gone := fun hmem => hforest.not_isBelow_self _ (hgone _ hmem).1
  constructor
  · exact h.isForest
  · exact h.label_eq
  · intro id hid
    have hmem : id ∉ gone := fun hmem => hid (hgone id hmem).2 (hgone id hmem).1
    rw [content, content, h.descendants_eq id hmem, filter_filter]
    -- What is gone is a wrapper, so it is not counted anyway.
    refine filter_congr fun other _ => ?_
    rw [h.name_eq]
    cases hname : isWrapper (forest.node other).name with
    | false => exact decide_eq_true (hkept other hname)
    | true => rfl
  · intro id other hid hother
    rw [h.isBelow_iff hforest (hkept other hother)]
    exact and_iff_left (hkept id hid)
  · exact fun id hbelow => ((h.isBelow_iff hforest hcontainer).mp hbelow).1

/-! ### The passes -/

/-- What a pass of the normal form does with the children of a container. -/
structure IsPass (container : Nat) (pass : List Tree → List Tree)
    (forest forest' : Forest) : Prop where
  /-- It only takes choices and repetitions away. -/
  keepsContent : KeepsContent container forest forest'
  /-- The trees that are left are what the pass makes of those that were there. -/
  children_eq : (forest'.tree container).children = pass (forest.tree container).children

theorem IsPass.comp {middle : Forest} {pass pass' : List Tree → List Tree}
    (h : IsPass container pass forest middle) (h' : IsPass container pass' middle forest') :
    IsPass container (fun trees => pass' (pass trees)) forest forest' where
  keepsContent := h.keepsContent.trans h'.keepsContent
  children_eq := h'.children_eq.trans (congrArg pass' h.children_eq)

/-- A wrapper at or below a container is below it. -/
theorem isBelow_of_isWrapper (hcontainer : isWrapper (forest.node container).name = false)
    {id : Nat} (hid : forest.IsAtOrBelow id container)
    (hwrapper : isWrapper (forest.node id).name = true) : forest.IsBelow id container := by
  refine (isAtOrBelow_iff.mp hid).resolve_left ?_
  rintro rfl
  exact Bool.false_ne_true (hcontainer.symm.trans hwrapper)

section Passes

variable (h : forest.IsForest) (hcontainer : isWrapper (forest.node container).name = false)

include h hcontainer

theorem IsForest.isPass_flattenChoices :
    IsPass container NormalForm.flattenChoicesAll forest (forest.flattenChoices container) := by
  have hname : (forest.node container).name ≠ "choice" := fun hchoice =>
    Bool.false_ne_true (hcontainer.symm.trans (isWrapper_choice hchoice))
  obtain ⟨gone, places, hdissolved, hgone, hall⟩ :=
    (h.flattensTo_flattenChoices container).exists_isDissolved h hname (.refl h) nofun fun _ _ =>
      Iff.rfl
  have hkept : container ∉ gone := fun hmem => hname (hgone container hmem).2.1
  have htree := hdissolved.map_tree_flattenChoices h (fun id hmem => (hgone id hmem).2)
    hall container .refl
  refine ⟨hdissolved.keepsContent h fun id hmem => ⟨(hgone id hmem).1, ?_⟩, ?_⟩
  · exact isWrapper_choice (hgone id hmem).2.1
  · rw [hdissolved.tree_eq hkept, htree,
      NormalForm.flattenChoices_other ((h.name_tree container).trans_ne hname)]

theorem IsForest.isPass_collapseChoices :
    IsPass container NormalForm.collapseChoicesAll forest (forest.collapseChoices container) := by
  have hname : (forest.node container).name ≠ "choice" := fun hchoice =>
    Bool.false_ne_true (hcontainer.symm.trans (isWrapper_choice hchoice))
  obtain ⟨gone, places, hdissolved, hgone, hall⟩ := h.exists_isDissolved_collapseChoices container
  have hfound : ∀ id ∈ gone, forest.IsBelow id container ∧ (forest.node id).name = "choice" :=
    fun id hmem => h.mem_findAll_iff.mp (hgone id hmem).1
  have hkept : container ∉ gone := fun hmem => hname (hfound container hmem).2
  have htree := hdissolved.map_tree_collapseChoices h
    (fun id hmem => ⟨(hfound id hmem).2, (hgone id hmem).2⟩)
    (fun id hid hchoice => hall id (h.mem_findAll_iff.mpr
      ⟨isBelow_of_isWrapper hcontainer hid (isWrapper_choice hchoice), hchoice⟩)) container .refl
  refine ⟨hdissolved.keepsContent h fun id hmem =>
    ⟨(hfound id hmem).1, isWrapper_choice (hfound id hmem).2⟩, ?_⟩
  rw [hdissolved.places_of_notMem hkept, map_singleton] at htree
  rw [(cons.inj htree).1, NormalForm.collapseChoices_other ((h.name_tree container).trans_ne hname)]

theorem IsForest.isPass_unwrapTexts :
    IsPass container NormalForm.unwrapTextAll forest (forest.unwrapTexts container) := by
  have hname : isSkippable (forest.node container).name = false :=
    eq_false_of_isWrapper hcontainer isWrapper_of_isSkippable
  obtain ⟨gone, places, hunwrapped⟩ := h.exists_isUnwrapped hname
  have hfound : ∀ id ∈ gone, isWrapper (forest.node id).name = true := fun id hmem =>
    isWrapper_of_isSkippable (hunwrapped.isSkippable hmem)
  have hkept : container ∉ gone := fun hmem =>
    Bool.false_ne_true (hcontainer.symm.trans (hfound container hmem))
  have htree := hunwrapped.map_tree_unwrapText h container .refl
  refine ⟨hunwrapped.isDissolved.keepsContent h fun id hmem => ⟨?_, hfound id hmem⟩, ?_⟩
  · obtain ⟨text, htext, hwrapper⟩ := hunwrapped.exists_text id hmem
    have hparent := (h.mem_children_iff text id).mp (hwrapper.children_eq ▸ mem_singleton_self text)
    obtain ⟨parent, hparent', hid⟩ := Forest.isBelow_iff.mp (h.mem_findAll_iff.mp htext).1
    obtain rfl := Option.some.inj (hparent'.symm.trans hparent)
    exact isBelow_of_isWrapper hcontainer hid (hfound parent hmem)
  · rw [hunwrapped.isDissolved.places_of_notMem hkept, map_singleton] at htree
    have hskip : isSkippable (forest.tree container).name = true →
        (forest.tree container).children.map Tree.name ≠ ["text"] := by
      rw [h.name_tree, hname]
      nofun
    rw [(cons.inj htree).1, NormalForm.unwrapText_kept hskip]

theorem IsForest.isPass_dropEmpty :
    IsPass container NormalForm.dropEmpty forest (forest.dropEmpty container) := by
  have hname : isRepetition (forest.node container).name = false :=
    eq_false_of_isWrapper hcontainer isWrapper_of_isRepetition
  obtain ⟨gone, places, hdissolved, hgone, hall⟩ := h.exists_isDissolved_dropEmpty container
  have hmem_iff := (h.isListing_descendants container).mem_iff
  have hkept : container ∉ gone := fun hmem =>
    Bool.false_ne_true (hname.symm.trans (hgone container hmem).2.1)
  have htree := hdissolved.map_tree_dropEmpty h (fun id hmem => (hgone id hmem).2)
    (fun id hid hmem hempty => hall id (mem_reverse.mpr ((hmem_iff id).mpr
      (isBelow_of_isWrapper hcontainer hid (isWrapper_of_isRepetition hempty.1)))) hmem
      hempty) container .refl
  refine ⟨hdissolved.keepsContent h fun id hmem =>
    ⟨?_, isWrapper_of_isRepetition (hgone id hmem).2.1⟩, ?_⟩
  · exact (hmem_iff id).mp (mem_reverse.mp (hgone id hmem).1)
  · rw [hdissolved.places_of_notMem hkept, map_singleton, NormalForm.dropEmpty_singleton,
      h.name_tree, hname, Bool.false_and, if_neg Bool.false_ne_true] at htree
    rw [(cons.inj htree).1]

end Passes

/-! ### All passes -/

/-- The normal form of the content of an element: choices in choices are spliced into these, choices
of one and wrappers of a text are replaced by what is in them, and repetitions of nothing go
away. -/
def normaliseContent (forest : Forest) (container : Nat) : Forest :=
  (((forest.flattenChoices container).collapseChoices container).unwrapTexts container).dropEmpty
    container

/-- **The normal form in place**: the loop over choices in choices ends, with one forest only. After
all passes the elements other than choices and repetitions are in the same order and below the same
ones of them as before, whatever element they are listed from, and the trees in the container are
the normal form of those that were there. -/
theorem IsForest.keepsContent_normaliseContent (h : forest.IsForest)
    (hname : (forest.node container).name = "children") :
    (∀ other, FlattensTo container forest other ↔ other = forest.flattenChoices container) ∧
      KeepsContent container forest (forest.normaliseContent container) ∧
      ((forest.normaliseContent container).tree container).children =
        NormalForm.normalise (forest.tree container).children := by
  have hloop := h.flattensTo_flattenChoices container
  have hcontainer : ∀ state : Forest, KeepsContent container forest state →
      isWrapper (state.node container).name = false := by
    intro state hstate
    have hsame : (state.node container).name = (forest.node container).name :=
      congrArg Prod.fst (hstate.label_eq container)
    rw [hsame, hname]
    decide
  have hflat := h.isPass_flattenChoices (hcontainer forest (.refl h))
  have hcollapsed := hflat.comp
    (hflat.keepsContent.isForest.isPass_collapseChoices (hcontainer _ hflat.keepsContent))
  have hunwrapped := hcollapsed.comp
    (hcollapsed.keepsContent.isForest.isPass_unwrapTexts (hcontainer _ hcollapsed.keepsContent))
  have hdropped := hunwrapped.comp
    (hunwrapped.keepsContent.isForest.isPass_dropEmpty (hcontainer _ hunwrapped.keepsContent))
  refine ⟨fun other => ⟨fun hother => hother.eq hloop, ?_⟩, hdropped.keepsContent,
    hdropped.children_eq⟩
  rintro rfl
  exact hloop

/-- An element with a choice in a choice, an optional text and a repetition of nothing in another
one. -/
def unsettled : Forest :=
  ofTree (.plain "element" [.plain "children" [
    .plain "choice" [.plain "choice" [.plain "element" [], .plain "text" []],
      .plain "optional" [.plain "text" []]],
    .plain "oneOrMore" [.plain "zeroOrMore" []]]])

/-- The elements 0, 1, 4, 5 and 7 stay where they are, and so does the outer choice. -/
theorem normaliseContent_unsettled :
    unsettled.IsForest ∧ (unsettled.node 1).name = "children" ∧ unsettled.content 0 = [1, 4, 5, 7] ∧
      (unsettled.normaliseContent 1).descendants 0 = [1, 2, 4, 5, 7] ∧
      (∀ other, FlattensTo 1 unsettled other ↔ other = unsettled.flattenChoices 1) ∧
      KeepsContent 1 unsettled (unsettled.normaliseContent 1) ∧
      ((unsettled.normaliseContent 1).tree 1).children =
        NormalForm.normalise (unsettled.tree 1).children := by
  have hforest : unsettled.IsForest := (Reached.ofTree _).isForest
  exact ⟨hforest, by decide, by decide, by decide,
    hforest.keepsContent_normaliseContent (by decide)⟩

end RelaxSchema.Forest
