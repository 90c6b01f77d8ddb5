import RelaxSchema.Proofs.Grammar.NestedChoices

/-!
# Passes over the elements of a container

The other passes of the normal form as edits of a forest. Each of them lists some elements below a
container, and then looks at one after the other in the forest that it has changed.

* `Forest.IsForest.exists_isDissolved_collapseChoices`,
  `Forest.IsDissolved.map_tree_collapseChoices`: choices of one are dissolved;
* `Forest.IsForest.exists_isUnwrapped`, `Forest.IsUnwrapped.map_tree_unwrapText`: wrappers of a text
  are dissolved;
* `Forest.IsForest.exists_isDissolved_dropEmpty`, `Forest.IsDissolved.map_tree_dropEmpty`:
  repetitions of nothing are dissolved.

Where an element with one child is dissolved, all others have as many children as before. So a
choice of one and a wrapper of a text are found whenever it is their turn. Repetitions of nothing
are found since the elements below them come before them.
-/

namespace RelaxSchema.Forest

open List
open NormalForm (isSkippable isRepetition)

variable {forest forest' : Forest} {container : Nat}

/-! ### Passes over a list -/

/-- What each step of a fold keeps, told from the entries that are done, holds at its end. -/
theorem foldl_induction {α β : Type*} {step : β → α → β} {P : List α → β → Prop} {entries : List α}
    {start : β} (hstart : P [] start)
    (hstep : ∀ done entry rest state, entries = done ++ entry :: rest →
      P done state → P (done ++ [entry]) (step state entry)) :
    P entries (entries.foldl step start) := by
  suffices hall : ∀ rest done state, entries = done ++ rest → P done state →
      P entries (rest.foldl step state) from hall entries [] start rfl hstart
  intro rest
  induction rest with
  | nil =>
    intro done state hsplit hdone
    rw [append_nil] at hsplit
    exact hsplit ▸ hdone
  | cons entry rest ih =>
    intro done state hsplit hdone
    refine ih (done ++ [entry]) _ ?_ (hstep done entry rest state hsplit hdone)
    rw [hsplit, append_assoc, singleton_append]

theorem notMem_of_nodup {done rest : List Nat} {entry : Nat} (h : (done ++ entry :: rest).Nodup) :
    entry ∉ done := fun hmem => (nodup_append.mp h).2.2 entry hmem entry mem_cons_self rfl

/-- An element below a container is still there, unless it is gone. -/
theorem IsDissolved.exists_parent {gone : List Nat} {places : Nat → List Nat}
    (h : IsDissolved forest forest' gone places) (hforest : forest.IsForest) {id : Nat}
    (hbelow : forest.IsBelow id container) (hcontainer : container ∉ gone) (hid : id ∉ gone) :
    ∃ parent, forest'.parent? id = some parent := by
  obtain ⟨parent, hparent, -⟩ :=
    Forest.isBelow_iff.mp ((h.isBelow_iff hforest hcontainer).mpr ⟨hbelow, hid⟩)
  exact ⟨parent, hparent⟩

/-- A pass that looks at some elements one after the other, and dissolves those whose children fit,
has dissolved elements in whose places fits what stands there, and has left those whose children do
not fit. What fits or does not has to stay so when another element is dissolved. -/
theorem IsForest.exists_isDissolved_foldl (h : forest.IsForest) {entries : List Nat}
    {P : Nat → List Nat → Prop} {step : Forest → Nat → Forest} (hnodup : entries.Nodup)
    (hbelow : ∀ id ∈ entries, forest.IsBelow id container)
    (hstep : ∀ state : Forest, state.IsForest → (∀ id, state.label id = forest.label id) → ∀ id,
      P id (state.children id) ∧ step state id = state.dissolve id ∨
        ¬ P id (state.children id) ∧ step state id = state)
    (hgone : ∀ (state : Forest) (id other : Nat) (ids : List Nat), P id (state.children id) →
      P other ids → P other (ids.flatMap (state.remains id)))
    (hothers : ∀ done id rest, entries = done ++ id :: rest → ∀ other ∈ done, ∀ (state : Forest)
      (ids : List Nat), P id (state.children id) → (id ∈ ids → forest.IsBelow id other) →
        ¬ P other ids → ¬ P other (ids.flatMap (state.remains id))) :
    ∃ gone places, IsDissolved forest (entries.foldl step forest) gone places ∧
      (∀ id ∈ gone, id ∈ entries ∧ P id (places id)) ∧
      ∀ id ∈ entries, id ∉ gone → ¬ P id ((entries.foldl step forest).children id) := by
  refine foldl_induction
    (P := fun done state => ∃ gone places, IsDissolved forest state gone places ∧
    (∀ id ∈ gone, id ∈ done ∧ P id (places id)) ∧
    ∀ id ∈ done, id ∉ gone → ¬ P id (state.children id)) ⟨[], _, .refl h, nofun, nofun⟩ ?_
  rintro done id rest state hsplit ⟨gone, places, hstate, hfits, hdone⟩
  have hid : id ∉ gone := fun hmem => notMem_of_nodup (hsplit ▸ hnodup) (hfits id hmem).1
  have hkept : container ∉ gone := fun hmem =>
    h.not_isBelow_self container
      (hbelow container (hsplit ▸ mem_append_left _ (hfits container hmem).1))
  have hnext : forest.IsBelow id container := hbelow id (hsplit ▸ mem_append_right _ mem_cons_self)
  rcases hstep state hstate.isForest hstate.label_eq id with ⟨hfit, heq⟩ | ⟨hfit, heq⟩ <;> rw [heq]
  -- Its children come into the places of the elements that are gone and among the children of the
  -- others.
  · obtain ⟨parent, hparent⟩ := hstate.exists_parent h hnext hkept hid
    refine ⟨id :: gone, _, hstate.dissolve hid hparent, fun other hmem => ?_,
      fun other hmem hother => ?_⟩
    · rcases mem_cons.mp hmem with rfl | hmem
      · refine ⟨mem_append_right _ (mem_singleton_self other), ?_⟩
        rw [hstate.places_of_notMem hid, flatMap_singleton, remains, if_pos rfl]
        exact hfit
      · exact ⟨mem_append_left _ (hfits other hmem).1,
          hgone state id other _ hfit (hfits other hmem).2⟩
    · obtain ⟨hne, hother⟩ := not_or.mp (mem_cons.not.mp hother)
      have hmem : other ∈ done := (mem_append.mp hmem).resolve_right fun hsame =>
        hne (mem_singleton.mp hsame)
      rw [hstate.isForest.children_dissolve hparent hne]
      refine hothers done id rest hsplit other hmem state _ hfit (fun hchild => ?_)
        (hdone other hmem hother)
      exact ((hstate.isBelow_iff h hother).mp (hstate.isForest.isBelow_of_mem_children hchild)).1
  · refine ⟨gone, places, hstate, fun other hmem => ⟨mem_append_left _ (hfits other hmem).1,
      (hfits other hmem).2⟩, fun other hmem hother => ?_⟩
    rcases mem_append.mp hmem with hmem | hmem
    · exact hdone other hmem hother
    · exact mem_singleton.mp hmem ▸ hfit

/-! ### Choices of one -/

/-- To replace an element by its only child is to dissolve it. -/
theorem IsForest.replace_eq_dissolve (h : forest.IsForest) {id only : Nat}
    (honly : forest.children id = [only]) : forest.replace id only = forest.dissolve id := by
  cases hparent : forest.parent? id with
  | none => rw [Forest.replace, Forest.dissolve, hparent, detach_of_parent?_eq_none hparent]
  | some parent =>
    have hchild : forest.parent? only = some id :=
      (h.mem_children_iff only id).mp (honly ▸ mem_singleton_self only)
    rw [h.replace_eq hparent (h.ne_of_parent? hchild) (lt_size_of_parent? hchild)
      (h.not_isAtOrBelow_child hparent hchild), dissolve_eq hparent, honly]
    rfl

/-- Puts the only child of a choice in its place, if it has only one. -/
def collapseChoice (forest : Forest) (choice : Nat) : Forest :=
  match forest.children choice with
  | [only] => forest.replace choice only
  | _ => forest

/-- Collapses the choices of one below an element. -/
def collapseChoices (forest : Forest) (container : Nat) : Forest :=
  (forest.findAll container "choice").foldl collapseChoice forest

theorem IsForest.collapseChoice_cases (h : forest.IsForest) (choice : Nat) :
    (forest.children choice).length = 1 ∧ forest.collapseChoice choice = forest.dissolve choice ∨
      (forest.children choice).length ≠ 1 ∧ forest.collapseChoice choice = forest := by
  unfold collapseChoice
  split
  · rename_i only honly
    exact .inl ⟨by rw [honly]; rfl, h.replace_eq_dissolve honly⟩
  · rename_i hother
    refine .inr ⟨fun hlength => ?_, rfl⟩
    obtain ⟨only, honly⟩ := length_eq_one_iff.mp hlength
    exact hother only honly

theorem length_flatMap_of_forall {ids : List Nat} {places : Nat → List Nat}
    (h : ∀ id, (places id).length = 1) : (ids.flatMap places).length = ids.length := by
  induction ids with
  | nil => rfl
  | cons id rest ih => rw [flatMap_cons, length_append, h, ih, length_cons, Nat.add_comm]

theorem length_flatMap_remains {id : Nat} (h : (forest.children id).length = 1) (ids : List Nat) :
    (ids.flatMap (forest.remains id)).length = ids.length := by
  refine length_flatMap_of_forall fun child => ?_
  rw [remains]
  split
  · exact h
  · rfl

/-- The pass dissolves the choices of one. -/
theorem IsForest.exists_isDissolved_collapseChoices (h : forest.IsForest) (container : Nat) :
    ∃ gone places, IsDissolved forest (forest.collapseChoices container) gone places ∧
      (∀ id ∈ gone, id ∈ forest.findAll container "choice" ∧ (places id).length = 1) ∧
      ∀ id ∈ forest.findAll container "choice", id ∉ gone →
        ((forest.collapseChoices container).children id).length ≠ 1 := by
  refine h.exists_isDissolved_foldl (P := fun _ ids => ids.length = 1)
    (h.nodup_findAll container "choice")
    (fun id hid => (h.mem_findAll_iff.mp hid).1)
    (fun state hstate _ => hstate.collapseChoice_cases) ?_ ?_
  · intro state id other ids hone hlength
    rw [length_flatMap_remains hone, hlength]
  · intro done id rest _ other _ state ids hone _ hlength
    rwa [length_flatMap_remains hone]

section Trees

variable {gone : List Nat} {places : Nat → List Nat} (h : IsDissolved forest forest' gone places)
  (hforest : forest.IsForest)

theorem IsForest.isAtOrBelow_of_mem_children (hforest : forest.IsForest) {id child : Nat}
    (hchild : child ∈ forest.children id) (hid : forest.IsAtOrBelow id container) :
    forest.IsAtOrBelow child container :=
  (hforest.isBelow_of_mem_children hchild).to_reflTransGen.trans hid

include h hforest

/-- The tree after the pass. -/
theorem IsDissolved.map_tree_collapseChoices
    (hgone : ∀ id ∈ gone, (forest.node id).name = "choice" ∧ (places id).length = 1)
    (hothers : ∀ id, forest.IsAtOrBelow id container →
      (forest.node id).name = "choice" → id ∉ gone →
      (forest'.children id).length ≠ 1) (id : Nat) (hid : forest.IsAtOrBelow id container) :
    (places id).map forest'.tree = [NormalForm.collapseChoices (forest.tree id)] := by
  induction id using hforest.induction with
  | hstep id ih =>
    have hchildren : ((forest.children id).flatMap places).map forest'.tree =
        ((forest.children id).map forest.tree).map NormalForm.collapseChoices :=
      map_flatMap_places_singleton _ fun child hchild =>
        ih child hchild (hforest.isAtOrBelow_of_mem_children hchild hid)
    rw [hforest.tree_eq id, NormalForm.collapseChoices,
      NormalForm.collapseChoicesAll_eq_map, ← hchildren]
    by_cases hmem : id ∈ gone
    · obtain ⟨hname, hlength⟩ := hgone id hmem
      rw [h.places_of_mem hmem] at hlength ⊢
      obtain ⟨only, honly⟩ := length_eq_one_iff.mp hlength
      rw [honly, hname]
      rfl
    · rw [h.places_of_notMem hmem, map_singleton, h.tree_eq hmem, NormalForm.onlyChoice]
      intro attributes only heq
      have hlength := congrArg (fun tree => tree.children.length) heq
      simp only [length_map, ← h.children_eq id hmem, length_singleton] at hlength
      exact hothers id hid (congrArg Tree.name heq) hmem hlength

end Trees

/-! ### Wrappers of a text -/

/-- Puts a text in the place of the wrapper around it that only allows it to be absent, if it is the
only child of that. -/
def unwrapText (forest : Forest) (text : Nat) : Forest :=
  match forest.parent? text with
  | none => forest
  | some wrapper =>
    if isSkippable (forest.node wrapper).name && (forest.children wrapper).length = 1 then
      forest.replace wrapper text
    else forest

/-- Unwraps the texts below an element. -/
def unwrapTexts (forest : Forest) (container : Nat) : Forest :=
  (forest.findAll container "text").foldl unwrapText forest

/-- A wrapper that only allows a text to be absent, which is its only child. -/
structure IsTextWrapper (forest : Forest) (id text : Nat) : Prop where
  /-- It allows its content to be absent. -/
  isSkippable : isSkippable (forest.node id).name = true
  /-- That is a text. -/
  name_eq : (forest.node text).name = "text"
  /-- There is nothing else in it. -/
  children_eq : forest.children id = [text]

theorem ne_text_of_isSkippable {name : String} (h : isSkippable name = true) : name ≠ "text" := by
  rintro rfl
  exact absurd h (by decide)

theorem IsForest.children_eq_singleton_iff (h : forest.IsForest) {id child : Nat}
    (hparent : forest.parent? child = some id) :
    forest.children id = [child] ↔ (forest.children id).length = 1 := by
  have hmem := (h.mem_children_iff child id).mpr hparent
  refine ⟨fun hchildren => by rw [hchildren]; rfl, fun hlength => ?_⟩
  obtain ⟨only, honly⟩ := length_eq_one_iff.mp hlength
  rw [honly] at hmem ⊢
  rw [mem_singleton.mp hmem]

theorem IsForest.unwrapText_cases (h : forest.IsForest) {text wrapper : Nat}
    (hname : (forest.node text).name = "text") (hparent : forest.parent? text = some wrapper) :
    forest.IsTextWrapper wrapper text ∧ forest.unwrapText text = forest.dissolve wrapper ∨
      ¬ forest.IsTextWrapper wrapper text ∧ forest.unwrapText text = forest := by
  rw [unwrapText, hparent]
  simp only [Bool.and_eq_true, decide_eq_true_iff, ← h.children_eq_singleton_iff hparent]
  split
  · rename_i hwrapper
    exact .inl ⟨⟨hwrapper.1, hname, hwrapper.2⟩, h.replace_eq_dissolve hwrapper.2⟩
  · rename_i hwrapper
    exact .inr ⟨fun hfound => hwrapper ⟨hfound.isSkippable, hfound.children_eq⟩, rfl⟩

/-- A forest after some texts are unwrapped: the wrappers of these are gone, and no others. -/
structure IsUnwrapped (forest forest' : Forest) (done gone : List Nat)
    (places : Nat → List Nat) : Prop where
  /-- The wrappers are dissolved. -/
  isDissolved : IsDissolved forest forest' gone places
  /-- Those that are gone are wrappers of one of the texts. -/
  exists_text : ∀ id ∈ gone, ∃ text ∈ done, forest.IsTextWrapper id text
  /-- All wrappers of the texts are gone. -/
  mem_gone : ∀ id, ∀ text ∈ done, forest.IsTextWrapper id text → id ∈ gone

section Unwrapped

variable {done gone : List Nat} {places : Nat → List Nat} (hforest : forest.IsForest)
  (h : IsUnwrapped forest forest' done gone places)

include h

theorem IsUnwrapped.isSkippable {id : Nat} (hid : id ∈ gone) :
    isSkippable (forest.node id).name = true := by
  obtain ⟨_, -, hwrapper⟩ := h.exists_text id hid
  exact hwrapper.isSkippable

theorem IsUnwrapped.places_of_text {text : Nat} (htext : (forest.node text).name = "text") :
    places text = [text] :=
  h.isDissolved.places_of_notMem fun hmem => ne_text_of_isSkippable (h.isSkippable hmem) htext

/-- In the place of a wrapper that is gone stands its text. -/
theorem IsUnwrapped.length_places (id : Nat) : (places id).length = 1 := by
  by_cases hmem : id ∈ gone
  · obtain ⟨text, -, hwrapper⟩ := h.exists_text id hmem
    rw [h.isDissolved.places_of_mem hmem, hwrapper.children_eq, flatMap_singleton,
      h.places_of_text hwrapper.name_eq]
    rfl
  · rw [h.isDissolved.places_of_notMem hmem]
    rfl

variable {text wrapper : Nat} (hname : (forest.node text).name = "text") (hnew : text ∉ done)
  (hparent : forest.parent? text = some wrapper)

include hforest hnew hparent

/-- The parent of a text that is not looked at yet is still there. -/
theorem IsUnwrapped.parent_notMem : wrapper ∉ gone := by
  intro hmem
  obtain ⟨other, hother, hwrapper⟩ := h.exists_text wrapper hmem
  have hchild := (hforest.mem_children_iff text wrapper).mpr hparent
  rw [hwrapper.children_eq] at hchild
  exact hnew (mem_singleton.mp hchild ▸ hother)

include hname

theorem IsUnwrapped.parent?_eq : forest'.parent? text = some wrapper := by
  have hchild := (hforest.mem_children_iff text wrapper).mpr hparent
  rw [← h.isDissolved.isForest.mem_children_iff,
    h.isDissolved.children_eq wrapper (h.parent_notMem hforest hnew hparent)]
  exact mem_flatMap.mpr ⟨text, hchild, h.places_of_text hname ▸ mem_singleton_self text⟩

/-- It is a wrapper of the text if it was one before, since it has as many children as then. -/
theorem IsUnwrapped.isTextWrapper_iff :
    forest'.IsTextWrapper wrapper text ↔ forest.IsTextWrapper wrapper text := by
  have hchildren : forest'.children wrapper = [text] ↔ forest.children wrapper = [text] := by
    rw [h.isDissolved.isForest.children_eq_singleton_iff (h.parent?_eq hforest hname hnew hparent),
      hforest.children_eq_singleton_iff hparent,
      h.isDissolved.children_eq wrapper (h.parent_notMem hforest hnew hparent),
      length_flatMap_of_forall h.length_places]
  constructor
  · rintro ⟨hskippable, -, honly⟩
    exact ⟨h.isDissolved.name_eq wrapper ▸ hskippable, hname, hchildren.mp honly⟩
  · rintro ⟨hskippable, -, honly⟩
    exact ⟨(h.isDissolved.name_eq wrapper).symm ▸ hskippable,
      (h.isDissolved.name_eq text).trans hname, hchildren.mpr honly⟩

/-- One text more is unwrapped. -/
theorem IsUnwrapped.next (hwrapper : forest.IsAtOrBelow wrapper container)
    (hcontainer : NormalForm.isSkippable (forest.node container).name = false) :
    ∃ gone places, IsUnwrapped forest (forest'.unwrapText text) (done ++ [text]) gone places := by
  have hstate := h.isDissolved
  have hid := h.parent_notMem hforest hnew hparent
  have hiff := h.isTextWrapper_iff hforest hname hnew hparent
  have hsame : ∀ id, forest.IsTextWrapper id text → id = wrapper := by
    intro id hfound
    have hother := (hforest.mem_children_iff text id).mp (hfound.children_eq ▸
      mem_singleton_self text)
    exact Option.some.inj (hother.symm.trans hparent)
  have hname' : (forest'.node text).name = "text" := (hstate.name_eq text).trans hname
  rcases hstate.isForest.unwrapText_cases hname' (h.parent?_eq hforest hname hnew hparent) with
    ⟨hfound, heq⟩ | ⟨hfound, heq⟩ <;> rw [heq] <;> rw [hiff] at hfound
  · have hkept : ∀ id, NormalForm.isSkippable (forest.node id).name = true → id ≠ container := by
      rintro id hskippable rfl
      exact Bool.false_ne_true (hcontainer.symm.trans hskippable)
    have hbelow := (isAtOrBelow_iff.mp hwrapper).resolve_left (hkept wrapper hfound.isSkippable)
    obtain ⟨parent, hupper⟩ :=
      hstate.exists_parent hforest hbelow (fun hmem => hkept container (h.isSkippable hmem) rfl) hid
    refine ⟨wrapper :: gone, _, hstate.dissolve hid hupper, fun id hmem => ?_,
      fun id other hother hother' => ?_⟩
    · rcases mem_cons.mp hmem with rfl | hmem
      · exact ⟨text, mem_append_right _ (mem_singleton_self text), hfound⟩
      · obtain ⟨other, hother, hfound'⟩ := h.exists_text id hmem
        exact ⟨other, mem_append_left _ hother, hfound'⟩
    · rcases mem_append.mp hother with hother | hother
      · exact mem_cons_of_mem _ (h.mem_gone id other hother hother')
      · obtain rfl := mem_singleton.mp hother
        exact hsame id hother' ▸ mem_cons_self
  · refine ⟨gone, places, hstate, fun id hmem => ?_, fun id other hother hother' => ?_⟩
    · obtain ⟨other, hother, hfound'⟩ := h.exists_text id hmem
      exact ⟨other, mem_append_left _ hother, hfound'⟩
    · rcases mem_append.mp hother with hother | hother
      · exact h.mem_gone id other hother hother'
      · obtain rfl := mem_singleton.mp hother
        exact absurd (hsame id hother' ▸ hother') hfound

end Unwrapped

/-- The pass unwraps all texts. -/
theorem IsForest.exists_isUnwrapped (h : forest.IsForest)
    (hcontainer : isSkippable (forest.node container).name = false) :
    ∃ gone places, IsUnwrapped forest (forest.unwrapTexts container)
      (forest.findAll container "text") gone places := by
  refine foldl_induction
    (P := fun done state => ∃ gone places, IsUnwrapped forest state done gone places)
    ⟨[], _, .refl h, nofun, nofun⟩ ?_
  rintro done text rest state hsplit ⟨gone, places, hstate⟩
  obtain ⟨hbelow, hname⟩ := h.mem_findAll_iff.mp (hsplit ▸ mem_append_right _ mem_cons_self)
  obtain ⟨wrapper, hparent, hwrapper⟩ := Forest.isBelow_iff.mp hbelow
  have hnew := notMem_of_nodup (hsplit ▸ h.nodup_findAll container "text")
  exact hstate.next h hname hnew hparent hwrapper hcontainer

/-- The tree after the pass. -/
theorem IsUnwrapped.map_tree_unwrapText {gone : List Nat} {places : Nat → List Nat}
    (h : IsUnwrapped forest forest' (forest.findAll container "text") gone places)
    (hforest : forest.IsForest) (id : Nat) (hid : forest.IsAtOrBelow id container) :
    (places id).map forest'.tree = [NormalForm.unwrapText (forest.tree id)] := by
  have hname := hforest.name_tree
  induction id using hforest.induction with
  | hstep id ih =>
    have hchildren : ((forest.children id).flatMap places).map forest'.tree =
        ((forest.children id).map forest.tree).map NormalForm.unwrapText :=
      map_flatMap_places_singleton _ fun child hchild =>
        ih child hchild (hforest.isAtOrBelow_of_mem_children hchild hid)
    by_cases hmem : id ∈ gone
    · obtain ⟨text, -, hskippable, htext, honly⟩ := h.exists_text id hmem
      have htext := (hname text).trans htext
      have hkept := NormalForm.unwrapText_kept fun hwrapper =>
        absurd htext (ne_text_of_isSkippable hwrapper)
      rw [h.isDissolved.places_of_mem hmem, hchildren, hforest.tree_eq id, honly, map_singleton,
        map_singleton, hkept, NormalForm.unwrapText_text hskippable _ htext, htext]
    · have hkept : NormalForm.isSkippable (forest.tree id).name = true →
          (forest.tree id).children.map Tree.name ≠ ["text"] := by
        intro hskippable hnames
        rw [hforest.tree_eq id, map_map] at hnames
        obtain ⟨text, honly, htext⟩ := map_eq_singleton_iff.mp hnames
        have htext := (hname text).symm.trans htext
        have hbelow := hforest.isBelow_of_mem_children (honly ▸ mem_singleton_self text)
        have hentry := hforest.mem_findAll_iff.mpr ⟨Relation.TransGen.trans_left hbelow hid, htext⟩
        exact hmem (h.mem_gone id text hentry ⟨hname id ▸ hskippable, htext, honly⟩)
      rw [NormalForm.unwrapText_kept hkept, h.isDissolved.places_of_notMem hmem, map_singleton,
        h.isDissolved.tree_eq hmem, hchildren, hforest.tree_eq id, NormalForm.unwrapTextAll_eq_map]

/-! ### Repetitions of nothing -/

/-- To take an element without children away is to dissolve it. -/
theorem detach_eq_dissolve {id : Nat} (hnone : forest.children id = []) :
    forest.detach id = forest.dissolve id := by
  cases hparent : forest.parent? id with
  | none => rw [Forest.dissolve, hparent]
  | some parent =>
    rw [dissolve_eq hparent, hnone]
    rfl

/-- Takes a repetition away if it has no children. -/
def dropIfEmpty (forest : Forest) (id : Nat) : Forest :=
  if isRepetition (forest.node id).name && (forest.children id).isEmpty
    then forest.detach id else forest

/-- Drops the repetitions of nothing below an element, innermost first. -/
def dropEmpty (forest : Forest) (container : Nat) : Forest :=
  (forest.descendants container).reverse.foldl dropIfEmpty forest

theorem dropIfEmpty_cases (forest : Forest) (id : Nat) :
    (isRepetition (forest.node id).name = true ∧ forest.children id = []) ∧
        forest.dropIfEmpty id = forest.dissolve id ∨
      ¬ (isRepetition (forest.node id).name = true ∧ forest.children id = []) ∧
        forest.dropIfEmpty id = forest := by
  rw [dropIfEmpty]
  simp only [Bool.and_eq_true, List.isEmpty_iff]
  split
  · rename_i hempty
    exact .inl ⟨hempty, detach_eq_dissolve hempty.2⟩
  · rename_i hempty
    exact .inr ⟨hempty, rfl⟩

/-- The pass dissolves the repetitions of nothing. What is above an element is looked at later, so
it keeps the children that it has then. -/
theorem IsForest.exists_isDissolved_dropEmpty (h : forest.IsForest) (container : Nat) :
    ∃ gone places, IsDissolved forest (forest.dropEmpty container) gone places ∧
      (∀ id ∈ gone, id ∈ (forest.descendants container).reverse ∧
        isRepetition (forest.node id).name = true ∧ places id = []) ∧
      ∀ id ∈ (forest.descendants container).reverse, id ∉ gone →
        ¬ (isRepetition (forest.node id).name = true ∧
          (forest.dropEmpty container).children id = []) := by
  have hlisting := h.isListing_descendants container
  refine h.exists_isDissolved_foldl
    (P := fun id ids => isRepetition (forest.node id).name = true ∧ ids = [])
    (nodup_reverse.mpr hlisting.nodup)
    (fun id hid => (hlisting.mem_iff id).mp (mem_reverse.mp hid)) ?_ ?_ ?_
  · intro state _ hlabel id
    have hname : (state.node id).name = (forest.node id).name := congrArg Prod.fst (hlabel id)
    rw [← hname]
    exact dropIfEmpty_cases state id
  · rintro state id other ids - ⟨hname, rfl⟩
    exact ⟨hname, rfl⟩
  · -- An element that was looked at before is not above this one, so it has not lost a child.
    intro done id rest hsplit other hother state ids _ hbelow hfits
    have hpairwise : (done ++ id :: rest).Pairwise fun id other => forest.Precedes other id :=
      hsplit ▸ pairwise_reverse.mpr hlisting.pairwise
    have hprecedes := (pairwise_append.mp hpairwise).2.2 other hother id mem_cons_self
    have hnone : id ∉ ids := fun hmem => hprecedes.asymm h (.above (hbelow hmem))
    have hsame : ids.flatMap (state.remains id) = ids := flatMap_of_notMem hnone _
    rwa [hsame]

theorem dropEmpty_eq_flatMap (trees : List Tree) :
    NormalForm.dropEmpty trees = trees.flatMap fun tree => NormalForm.dropEmpty [tree] := by
  induction trees with
  | nil => rfl
  | cons tree rest ih => rw [NormalForm.dropEmpty_cons, ih, flatMap_cons]

/-- The tree after the pass. -/
theorem IsDissolved.map_tree_dropEmpty {gone : List Nat} {places : Nat → List Nat}
    (h : IsDissolved forest forest' gone places) (hforest : forest.IsForest)
    (hgone : ∀ id ∈ gone, isRepetition (forest.node id).name = true ∧ places id = [])
    (hothers : ∀ id, forest.IsAtOrBelow id container → id ∉ gone →
      ¬ (isRepetition (forest.node id).name = true ∧ forest'.children id = [])) (id : Nat)
    (hid : forest.IsAtOrBelow id container) :
    (places id).map forest'.tree = NormalForm.dropEmpty [forest.tree id] := by
  induction id using hforest.induction with
  | hstep id ih =>
    have hchildren : ((forest.children id).flatMap places).map forest'.tree =
        NormalForm.dropEmpty ((forest.children id).map forest.tree) := by
      rw [dropEmpty_eq_flatMap]
      exact map_flatMap_places _ fun child hchild =>
        ih child hchild (hforest.isAtOrBelow_of_mem_children hchild hid)
    rw [NormalForm.dropEmpty_singleton, hforest.tree_eq id, ← hchildren]
    by_cases hmem : id ∈ gone
    · obtain ⟨hname, hplace⟩ := hgone id hmem
      rw [← h.places_of_mem hmem, hplace, hname]
      rfl
    · have hempty : ¬ (isRepetition (forest.node id).name &&
          (((forest.children id).flatMap places).map forest'.tree).isEmpty) = true := by
        rw [Bool.and_eq_true, List.isEmpty_iff, map_eq_nil_iff, ← h.children_eq id hmem]
        exact hothers id hid hmem
      rw [if_neg hempty, h.places_of_notMem hmem, map_singleton, h.tree_eq hmem]

end RelaxSchema.Forest
