import RelaxSchema.Proofs.Grammar.Registration
import RelaxSchema.Proofs.Grammar.Sweeps

/-!
# Registration in place

Registration as edits of a forest: the definitions among the children of a grammar element are
listed, and then registered by their ids one after the other. One that is to be combined hands its
children over to the registered one.

* `Forest.IsForest.isAppended_appendChildren`: what a forest looks like after the children of an
  element are handed over to a sibling, and what becomes of the trees of siblings;
* `Registry.IsCollecting.register_eq`: registering a definition by its id is registering its tree;
* `Registry.collect_tree`: so registration in place and registration of the trees fail alike, and
  what is registered is the same.

The registry has ids for names where the definitions of a tree have positions. They are compared by
what is said of the children that are done (`Registry.among`), while the rest have their old trees
(`Registry.IsCollecting`).
-/

namespace RelaxSchema

open List

namespace Forest

variable {forest forest' : Forest} {grammar target source : Nat}

/-! ### Children that are moved -/

/-- Moves all children of an element to the end of those of another one. -/
def appendChildren (forest : Forest) (target source : Nat) : Forest :=
  (forest.children source).foldl (fun forest child => forest.append target child) forest

/-- A forest after the children of an element are moved to the end of those of another one. -/
structure IsAppended (forest forest' : Forest) (target source : Nat) : Prop where
  /-- It still is a forest. -/
  isForest : forest'.IsForest
  /-- Names and attributes stay as they are. -/
  label_eq : ∀ id, forest'.label id = forest.label id
  /-- The other one has its own children and those that are moved. -/
  children_target : forest'.children target = forest.children target ++ forest.children source
  /-- The element has no children any more. -/
  children_source : forest'.children source = []
  /-- The children of all others stay as they are. -/
  children_eq : ∀ id, id ≠ target → id ≠ source → forest'.children id = forest.children id

section Child

variable {child : Nat} (h : forest.IsForest) (hchild : forest.parent? child = some source)
  (htarget : target < forest.size) (habove : ¬ forest.IsAtOrBelow target source)

include h hchild htarget habove

theorem IsForest.isForest_append : (forest.append target child).IsForest :=
  h.attach htarget (lt_size_of_parent? hchild) (fun hbelow => habove (hbelow.tail hchild))
    fun ids => perm_append_singleton child ids

/-- A child that is moved comes last among the children of the other element. -/
theorem IsForest.children_append (id : Nat) : (forest.append target child).children id =
    if id = target then forest.children target ++ [child]
    else if id = source then (forest.children source).filter fun other => other ≠ child
    else forest.children id := by
  have hkept : ∀ other, other ≠ source →
      (forest.children other).filter (fun below => below ≠ child) = forest.children other :=
    fun other hother => h.filter_children_of_ne fun hsame =>
      hother (Option.some.inj (hchild.symm.trans hsame)).symm
  rw [append, h.children_attach htarget (lt_size_of_parent? hchild)]
  by_cases hid : id = target
  · subst hid
    have hne : id ≠ source := fun hsame => habove (hsame ▸ .refl)
    rw [if_pos rfl, if_pos rfl, hkept id hne]
  · rw [if_neg hid, if_neg hid]
    by_cases hsource : id = source
    · rw [if_pos hsource, hsource]
    · rw [if_neg hsource, hkept id hsource]

/-- A way up through the new place goes on from the other element, where it could have started. -/
theorem IsForest.not_isAtOrBelow_append :
    ¬ (forest.append target child).IsAtOrBelow target source := by
  intro hbelow
  have hne : target ≠ source := fun hsame => habove (hsame ▸ .refl)
  have hbelow := (isAtOrBelow_iff.mp hbelow).resolve_left hne
  rcases transGen_of_edge (fun _ _ => h.hasParent_of_attach htarget (lt_size_of_parent? hchild))
    hbelow with hold | ⟨-, hafter⟩
  · exact habove hold.to_reflTransGen
  · exact habove hafter

end Child

/-- The children of an element are moved one after the other. -/
theorem IsForest.isAppended {moved : List Nat} (h : forest.IsForest)
    (htarget : target < forest.size) (habove : ¬ forest.IsAtOrBelow target source)
    (hmoved : forest.children source = moved) :
    IsAppended forest (moved.foldl (fun forest child => forest.append target child) forest)
      target source := by
  induction moved generalizing forest with
  | nil => exact ⟨h, fun _ => rfl, by rw [hmoved, append_nil]; rfl, hmoved, fun _ _ _ => rfl⟩
  | cons child rest ih =>
    have hchild : forest.parent? child = some source :=
      (h.mem_children_iff child source).mp (hmoved ▸ mem_cons_self)
    have hne : source ≠ target := fun hsame => habove (hsame ▸ .refl)
    have hchildren := h.children_append hchild htarget habove
    have hrest : (forest.append target child).children source = rest := by
      have hnodup := nodup_cons.mp (hmoved ▸ h.nodup_children source)
      rw [hchildren, if_neg hne, if_pos rfl, hmoved, filter_cons_of_neg (by simp), filter_eq_self]
      exact fun below hbelow => decide_eq_true fun hsame => hnodup.1 (hsame ▸ hbelow)
    have hnext := ih (h.isForest_append hchild htarget habove)
      (by rwa [Forest.append, Forest.size_attach])
      (h.not_isAtOrBelow_append hchild htarget habove) hrest
    constructor
    · exact hnext.isForest
    · exact fun other =>
        (hnext.label_eq other).trans (h.label_attach htarget (lt_size_of_parent? hchild) other)
    · rw [foldl_cons, hnext.children_target, hrest, hchildren, if_pos rfl, hmoved, append_assoc,
        singleton_append]
    · exact hnext.children_source
    · intro other hother hother'
      rw [foldl_cons, hnext.children_eq other hother hother', hchildren, if_neg hother,
        if_neg hother']

/-! ### Trees of siblings -/

theorem IsForest.isDefine_tree (h : forest.IsForest) (id : Nat) :
    Definitions.isDefine (forest.tree id) = forest.isNamed id "define" := by
  rw [Definitions.isDefine, h.name_tree, isNamed]

/-- A tree is as it was if nothing was done with the elements in it. -/
theorem IsForest.tree_congr (h : forest.IsForest) (h' : forest'.IsForest)
    (hlabel : ∀ id, forest'.label id = forest.label id) {id : Nat}
    (hchildren : ∀ other, forest.IsAtOrBelow other id →
      forest'.children other = forest.children other) : forest'.tree id = forest.tree id := by
  induction id using h.induction with
  | hstep id ih =>
    obtain ⟨hname, hattributes⟩ := Prod.mk.inj (hlabel id)
    rw [h'.tree_eq, h.tree_eq, hname, hattributes, hchildren id .refl]
    refine congrArg _ (map_congr_left fun child hchild => ih child hchild fun other hother => ?_)
    exact hchildren other (hother.tail ((h.mem_children_iff child id).mp hchild))

theorem IsAppended.tree_eq (h : IsAppended forest forest' target source) (hforest : forest.IsForest)
    {id : Nat} (htarget : ¬ forest.IsAtOrBelow target id)
    (hsource : ¬ forest.IsAtOrBelow source id) : forest'.tree id = forest.tree id :=
  hforest.tree_congr h.isForest h.label_eq fun other hother => h.children_eq other
    (fun hsame => htarget (hsame ▸ hother)) fun hsame => hsource (hsame ▸ hother)

section Siblings

variable (h : forest.IsForest) (htarget : target ∈ forest.children grammar)
  (hsource : source ∈ forest.children grammar) (hne : target ≠ source)

include h htarget hsource hne

theorem IsForest.not_isAtOrBelow_sibling : ¬ forest.IsAtOrBelow target source := fun hbelow =>
  hne (h.eq_of_isAtOrBelow htarget hsource .refl hbelow)

/-- No element is at or below a child of its sibling. -/
theorem IsForest.not_isAtOrBelow_nephew {child : Nat} (hchild : child ∈ forest.children source) :
    ¬ forest.IsAtOrBelow target child := fun hbelow =>
  h.not_isAtOrBelow_sibling htarget hsource hne
    (hbelow.tail ((h.mem_children_iff child source).mp hchild))

theorem IsForest.isAppended_appendChildren :
    IsAppended forest (forest.appendChildren target source) target source :=
  h.isAppended (lt_size_of_parent? ((h.mem_children_iff target grammar).mp htarget))
    (h.not_isAtOrBelow_sibling htarget hsource hne) rfl

/-- The trees of the children stay, where they are and where they are moved to. -/
theorem IsForest.tree_appendChildren_child {child : Nat}
    (hchild : child ∈ forest.children target ∨ child ∈ forest.children source) :
    (forest.appendChildren target source).tree child = forest.tree child := by
  have happended := h.isAppended_appendChildren htarget hsource hne
  have hself : ∀ id, child ∈ forest.children id →
      ¬ forest.IsAtOrBelow id child := fun id hmem hbelow =>
    h.not_isBelow_self id (.tail' hbelow ((h.mem_children_iff child id).mp hmem))
  rcases hchild with hchild | hchild
  · exact happended.tree_eq h (hself target hchild)
      (h.not_isAtOrBelow_nephew hsource htarget hne.symm hchild)
  · exact happended.tree_eq h (h.not_isAtOrBelow_nephew htarget hsource hne hchild)
      (hself source hchild)

theorem IsForest.tree_appendChildren_target : (forest.appendChildren target source).tree target =
    { forest.tree target with
      children := (forest.tree target).children ++ (forest.tree source).children } := by
  have happended := h.isAppended_appendChildren htarget hsource hne
  obtain ⟨hname, hattributes⟩ := Prod.mk.inj (happended.label_eq target)
  rw [happended.isForest.tree_eq, h.tree_eq, h.children_tree source, happended.children_target,
    hname, hattributes, ← map_append]
  refine congrArg _ (map_congr_left fun child hchild => ?_)
  exact h.tree_appendChildren_child htarget hsource hne (mem_append.mp hchild)

theorem IsForest.tree_appendChildren_source : (forest.appendChildren target source).tree source =
    { forest.tree source with children := [] } := by
  have happended := h.isAppended_appendChildren htarget hsource hne
  obtain ⟨hname, hattributes⟩ := Prod.mk.inj (happended.label_eq source)
  rw [happended.isForest.tree_eq, h.tree_eq, happended.children_source, hname, hattributes]
  rfl

theorem IsForest.tree_appendChildren_other {id : Nat} (hid : id ∈ forest.children grammar)
    (htarget' : target ≠ id) (hsource' : source ≠ id) :
    (forest.appendChildren target source).tree id = forest.tree id :=
  (h.isAppended_appendChildren htarget hsource hne).tree_eq h
    (h.not_isAtOrBelow_sibling htarget hid htarget')
    (h.not_isAtOrBelow_sibling hsource hid hsource')

end Siblings

end Forest

/-! ### Registries -/

/-- A forest with the ids of registered definitions by their names. -/
structure Registry where
  /-- The elements. -/
  forest : Forest
  /-- For each name, the id of its definition. -/
  ids : Catalogue Nat

namespace Registry

/-- Registers a definition. One that is to be combined hands its children to the registered one. -/
def register (registry : Registry) (define : Nat) : Except Error Registry :=
  match registry.forest.attribute? define "name" with
  | none => .error (.grammar .defineWithoutName)
  | some name =>
    match registry.ids.find? name, registry.forest.attribute? define "combine" with
    | some existing, some "interleave" =>
      .ok { registry with forest := registry.forest.appendChildren existing define }
    | _, _ => .ok { registry with ids := registry.ids.insert name define }

/-- Registers the definitions that are children of a grammar element. -/
def collect (forest : Forest) (grammar : Nat) : Except Error Registry :=
  ((forest.children grammar).filter fun id => forest.isNamed id "define").foldlM register
    ⟨forest, .empty⟩

/-- The definitions among some elements. -/
def defines (registry : Registry) (ids : List Nat) : List Nat :=
  ids.filter fun id => registry.forest.isNamed id "define"

/-- Some elements as children of a grammar element, with the positions that registered definitions
have among them. -/
def among (registry : Registry) (ids : List Nat) : Definitions where
  children := ids.map registry.forest.tree
  positions := registry.ids.map fun id => (registry.defines ids).idxOf id

theorem positions_among (registry : Registry) (ids : List Nat) : (registry.among ids).positions =
    registry.ids.map fun id => (registry.defines ids).idxOf id :=
  rfl

theorem find?_positions (registry : Registry) (ids : List Nat) (name : String) :
    (registry.among ids).positions.find? name =
      (registry.ids.find? name).map fun id => (registry.defines ids).idxOf id :=
  Catalogue.find?_map _ registry.ids name

theorem defines_among {registry : Registry} (h : registry.forest.IsForest) (ids : List Nat) :
    (registry.among ids).defines = (registry.defines ids).map registry.forest.tree := by
  rw [Definitions.defines, among, filter_map, defines]
  exact congrArg _ (filter_congr fun id _ => h.isDefine_tree id)

/-- What a registry says of a grammar element. -/
def definitions (registry : Registry) (grammar : Nat) : Definitions :=
  registry.among (registry.forest.children grammar)

/-! ### One child -/

/-- Some children of a grammar element are done, and the rest are as they were at the start. -/
structure IsCollecting (start : Forest) (grammar : Nat) (done rest : List Nat)
    (registry : Registry) : Prop where
  /-- Parents and children still agree. -/
  isForest : registry.forest.IsForest
  /-- Names and attributes stay as they are. -/
  label_eq : ∀ id, registry.forest.label id = start.label id
  /-- The grammar element has the same children. -/
  children_eq : registry.forest.children grammar = done ++ rest
  /-- The trees of the rest are as they were. -/
  tree_eq : ∀ id ∈ rest, registry.forest.tree id = start.tree id
  /-- What is registered is one of the definitions that are done. -/
  mem_defines : ∀ name id, registry.ids.find? name = some id → id ∈ registry.defines done

section Step

variable {start : Forest} {grammar id : Nat} {done rest : List Nat} {registry : Registry}

/-- The definitions are told by their names. -/
theorem defines_congr {registry' : Registry}
    (h : ∀ id, registry'.forest.label id = registry.forest.label id) (ids : List Nat) :
    registry'.defines ids = registry.defines ids :=
  filter_congr fun id _ =>
    congrArg (fun label : String × Catalogue String => decide (label.1 = "define")) (h id)

theorem defines_concat_define (h : registry.forest.isNamed id "define" = true) (done : List Nat) :
    registry.defines (done ++ [id]) = registry.defines done ++ [id] := by
  simp [defines, h]

theorem defines_concat_other (h : registry.forest.isNamed id "define" = false) (done : List Nat) :
    registry.defines (done ++ [id]) = registry.defines done := by
  simp [defines, h]

theorem defines_concat_subset (registry : Registry) (done : List Nat) (id : Nat) :
    registry.defines done ⊆ registry.defines (done ++ [id]) :=
  filter_subset _ (subset_append_left done [id])

/-- Adding children to the definition at a position is adding them to an element. -/
theorem extendDefine_map {trees trees' : Nat → Tree} {extra : List Tree} {target : Nat}
    {ids : List Nat} {isDefine : Nat → Bool}
    (hdefine : ∀ id, isDefine id = Definitions.isDefine (trees id)) (hnodup : ids.Nodup)
    (hmem : target ∈ ids.filter isDefine)
    (htarget : trees' target = { trees target with children := (trees target).children ++ extra })
    (hother : ∀ id ∈ ids, target ≠ id → trees' id = trees id) :
    Definitions.extendDefine extra ((ids.filter isDefine).idxOf target) (ids.map trees) =
      ids.map trees' := by
  induction ids with
  | nil => cases hmem
  | cons id rest ih =>
    obtain ⟨hid, hnodup⟩ := nodup_cons.mp hnodup
    have hrest := fun other hmem => hother other (mem_cons_of_mem id hmem)
    cases hnamed : isDefine id with
    | false =>
      rw [filter_cons_of_neg (by simp [hnamed])] at hmem ⊢
      have hne : target ≠ id := by
        rintro rfl
        exact hid (mem_of_mem_filter hmem)
      rw [map_cons, Definitions.extendDefine_skip ((hdefine id).symm.trans hnamed), map_cons,
        ih hnodup hmem hrest, hother id mem_cons_self hne]
    | true =>
      rw [filter_cons_of_pos hnamed] at hmem ⊢
      have hdefined := (hdefine id).symm.trans hnamed
      by_cases hsame : target = id
      · subst hsame
        rw [idxOf_cons_self, map_cons, Definitions.extendDefine_zero hdefined, map_cons, htarget]
        refine congrArg _ (map_congr_left fun other hmem => (hrest other hmem ?_).symm)
        rintro rfl
        exact hid hmem
      · have hmem := (mem_cons.mp hmem).resolve_left hsame
        rw [idxOf_cons_ne _ (Ne.symm hsame), map_cons, Definitions.extendDefine_succ hdefined,
          map_cons, ih hnodup hmem hrest, hother id mem_cons_self hsame]

/-- What registration of a definition does: it fails for want of a name, or the children go to the
registered one, or it is registered itself. -/
theorem register_cases (registry : Registry) (id : Nat) :
    (registry.forest.attribute? id "name" = none ∧
      registry.register id = .error (.grammar .defineWithoutName)) ∨
    (∃ name existing, registry.forest.attribute? id "name" = some name ∧
      registry.ids.find? name = some existing ∧
      registry.forest.attribute? id "combine" = some "interleave" ∧
      registry.register id =
        .ok { registry with forest := registry.forest.appendChildren existing id }) ∨
    (∃ name, registry.forest.attribute? id "name" = some name ∧
      (registry.ids.find? name = none ∨
        registry.forest.attribute? id "combine" ≠ some "interleave") ∧
      registry.register id = .ok { registry with ids := registry.ids.insert name id }) := by
  rw [register]
  cases hname : registry.forest.attribute? id "name" with
  | none => exact .inl ⟨rfl, rfl⟩
  | some name =>
    dsimp only
    split
    · rename_i existing hfound hcombine
      exact .inr (.inl ⟨name, existing, rfl, hfound, hcombine, rfl⟩)
    · rename_i hnew
      refine .inr (.inr ⟨name, rfl, ?_, rfl⟩)
      by_contra hboth
      obtain ⟨hfound, hcombine⟩ := not_or.mp hboth
      obtain ⟨existing, hexisting⟩ := Option.ne_none_iff_exists'.mp hfound
      exact hnew existing hexisting (not_not.mp hcombine)

theorem IsCollecting.isNamed_eq {rest : List Nat}
    (h : IsCollecting start grammar done rest registry) (id : Nat) (name : String) :
    registry.forest.isNamed id name = start.isNamed id name :=
  congrArg (fun label : String × Catalogue String => decide (label.1 = name)) (h.label_eq id)

section Register

variable (h : IsCollecting start grammar done (id :: rest) registry)

include h

theorem IsCollecting.nodup : (done ++ id :: rest).Nodup :=
  h.children_eq ▸ h.isForest.nodup_children grammar

theorem IsCollecting.notMem : id ∉ done := Forest.notMem_of_nodup h.nodup

/-- The positions of what is registered stay when one more child is done. -/
theorem IsCollecting.positions_concat :
    (registry.among (done ++ [id])).positions = (registry.among done).positions := by
  rw [positions_among, positions_among]
  refine Catalogue.map_congr_of_find? fun name other hother => ?_
  rw [defines, filter_append]
  exact idxOf_append_of_mem (h.mem_defines name other hother)

/-- Another element than a definition is only done. -/
theorem IsCollecting.among_other (hother : registry.forest.isNamed id "define" = false) :
    Definitions.register (registry.among done) (start.tree id) =
      .ok (registry.among (done ++ [id])) := by
  rw [← h.tree_eq id mem_cons_self,
    Definitions.register_other ((h.isForest.isDefine_tree id).trans hother)]
  refine congrArg Except.ok ?_
  rw [among, among, map_append, defines_concat_other hother]
  rfl

/-- What a definition is combined with is another child of the grammar element. -/
theorem IsCollecting.mem_children {name : String} {existing : Nat}
    (hexisting : registry.ids.find? name = some existing) :
    existing ∈ registry.forest.children grammar ∧ id ∈ registry.forest.children grammar ∧
      existing ≠ id := by
  have hmem := mem_of_mem_filter (h.mem_defines name existing hexisting)
  rw [h.children_eq]
  refine ⟨mem_append_left _ hmem, mem_append_right _ mem_cons_self, ?_⟩
  rintro rfl
  exact h.notMem hmem

theorem IsCollecting.among_combined {name : String} {existing : Nat}
    (hexisting : registry.ids.find? name = some existing) :
    (Registry.mk (registry.forest.appendChildren existing id) registry.ids).among (done ++ [id]) =
      { registry.among done with
        children := Definitions.extendDefine (registry.forest.tree id).children
            ((registry.defines done).idxOf existing) (registry.among done).children ++
          [{ registry.forest.tree id with children := [] }] } := by
  obtain ⟨hmem, hid, hne⟩ := h.mem_children hexisting
  have hforest := h.isForest
  have happended := hforest.isAppended_appendChildren hmem hid hne
  have hdefines : ∀ ids, (Registry.mk (registry.forest.appendChildren existing id)
      registry.ids).defines ids = registry.defines ids := defines_congr happended.label_eq
  -- Among those that are done, no other one has a tree that changes.
  have hextend := extendDefine_map (fun other => (h.isForest.isDefine_tree other).symm)
    (nodup_append.mp h.nodup).1 (h.mem_defines name existing hexisting)
    (hforest.tree_appendChildren_target hmem hid hne) fun other hother hne' =>
      hforest.tree_appendChildren_other hmem hid hne (h.children_eq ▸ mem_append_left _ hother) hne'
        fun hsame => h.notMem (hsame ▸ hother)
  have hpositions := h.positions_concat
  rw [among, map_append, ← hextend, map_singleton,
    hforest.tree_appendChildren_source hmem hid hne, hdefines]
  exact congrArg (Definitions.mk _) hpositions

theorem IsCollecting.among_inserted (hdefine : registry.forest.isNamed id "define" = true)
    (name : String) :
    (Registry.mk registry.forest (registry.ids.insert name id)).among (done ++ [id]) =
      ⟨(registry.among done).children ++ [registry.forest.tree id],
        (registry.among done).positions.insert name (registry.among done).defines.length⟩ := by
  have hlength : (registry.among done).defines.length = (registry.defines done).length := by
    rw [defines_among h.isForest, length_map]
  have hlast : (registry.defines (done ++ [id])).idxOf id = (registry.defines done).length := by
    have hnotMem : id ∉ registry.defines done := fun hmem => h.notMem (mem_of_mem_filter hmem)
    rw [defines_concat_define hdefine, idxOf_append_of_notMem hnotMem,
      idxOf_cons_self, Nat.add_zero]
  have hpositions := h.positions_concat
  rw [positions_among] at hpositions
  rw [hlength, ← hpositions, ← hlast, ← Catalogue.map_insert, among, map_append]
  rfl

/-- **Registering a definition in place** is registering its tree. -/
theorem IsCollecting.register_eq (hdefine : registry.forest.isNamed id "define" = true) :
    Definitions.register (registry.among done) (start.tree id) =
      (registry.register id).map fun next => next.among (done ++ [id]) := by
  have hattribute := h.isForest.attribute?_tree id
  have htree := (h.isForest.isDefine_tree id).trans hdefine
  have hfind := registry.find?_positions done
  rw [← h.tree_eq id mem_cons_self]
  rcases registry.register_cases id with ⟨hname, hregister⟩ |
    ⟨name, existing, hname, hexisting, hcombine, hregister⟩ | ⟨name, hname, hnew, hregister⟩
  · rw [Definitions.register_of_no_name htree ((hattribute "name").trans hname), hregister]
    rfl
  · rw [Definitions.register_of_combined htree ((hattribute "name").trans hname)
      (by rw [hfind, hexisting]; rfl) ((hattribute "combine").trans hcombine), hregister]
    exact congrArg Except.ok (h.among_combined hexisting).symm
  · rw [Definitions.register_of_new htree ((hattribute "name").trans hname) ?_, hregister]
    · exact congrArg Except.ok (h.among_inserted hdefine name).symm
    · rw [hfind, hattribute]
      exact hnew.imp_left fun hnone => by rw [hnone]; rfl

theorem IsCollecting.next_other : IsCollecting start grammar (done ++ [id]) rest registry where
  isForest := h.isForest
  label_eq := h.label_eq
  children_eq := by rw [h.children_eq, append_assoc, singleton_append]
  tree_eq other hother := h.tree_eq other (mem_cons_of_mem id hother)
  mem_defines name other hother :=
    registry.defines_concat_subset done id (h.mem_defines name other hother)

theorem IsCollecting.next_combined {name : String} {existing : Nat}
    (hexisting : registry.ids.find? name = some existing) :
    IsCollecting start grammar (done ++ [id]) rest
      ⟨registry.forest.appendChildren existing id, registry.ids⟩ := by
  obtain ⟨hmem, hid, hne⟩ := h.mem_children hexisting
  have hforest := h.isForest
  have happended := hforest.isAppended_appendChildren hmem hid hne
  have hself : ∀ child ∈ registry.forest.children grammar, grammar ≠ child := by
    rintro child hchild rfl
    exact hforest.notMem_children_self _ hchild
  constructor
  · exact happended.isForest
  · exact fun other => (happended.label_eq other).trans (h.label_eq other)
  · rw [happended.children_eq grammar (hself existing hmem) (hself id hid), h.children_eq,
      append_assoc, singleton_append]
  · intro other hother
    have hrest := mem_cons_of_mem id hother
    obtain ⟨-, hnodup, hapart⟩ := nodup_append.mp h.nodup
    have hdone := mem_of_mem_filter (h.mem_defines name existing hexisting)
    rw [← h.tree_eq other hrest]
    exact hforest.tree_appendChildren_other hmem hid hne (h.children_eq ▸ mem_append_right _ hrest)
      (hapart existing hdone other hrest) fun hsame => (nodup_cons.mp hnodup).1 (hsame ▸ hother)
  · intro name other hother
    rw [defines_congr happended.label_eq]
    exact registry.defines_concat_subset done id (h.mem_defines name other hother)

theorem IsCollecting.next_inserted (hdefine : registry.forest.isNamed id "define" = true)
    (name : String) :
    IsCollecting start grammar (done ++ [id]) rest ⟨registry.forest, registry.ids.insert name id⟩ :=
  { h.next_other with
    mem_defines := by
      intro other found hfound
      rw [Catalogue.find?_insert] at hfound
      split at hfound
      · obtain rfl := Option.some.inj hfound
        exact defines_concat_define hdefine done ▸ mem_append_right _ mem_cons_self
      · exact registry.defines_concat_subset done id (h.mem_defines other found hfound) }

/-- One more child is done after it is registered. -/
theorem IsCollecting.next (hdefine : registry.forest.isNamed id "define" = true) {next : Registry}
    (hnext : registry.register id = .ok next) :
    IsCollecting start grammar (done ++ [id]) rest next := by
  rcases registry.register_cases id with
    ⟨-, hregister⟩ | ⟨name, existing, -, hexisting, -, hregister⟩ | ⟨name, -, -, hregister⟩
  · cases hnext.symm.trans hregister
  · obtain rfl := Except.ok.inj (hnext.symm.trans hregister)
    exact h.next_combined hexisting
  · obtain rfl := Except.ok.inj (hnext.symm.trans hregister)
    exact h.next_inserted hdefine name

end Register

end Step

/-! ### All children -/

/-- **Registering some children in place** is registering their trees. -/
theorem IsCollecting.foldlM_register {start : Forest} {grammar : Nat} {done rest : List Nat}
    {registry : Registry} (h : IsCollecting start grammar done rest registry) :
    let step := fun (registry : Registry) id =>
      if start.isNamed id "define" = true then registry.register id else pure registry
    (rest.map start.tree).foldlM Definitions.register (registry.among done) =
        (rest.foldlM step registry).map (fun last => last.among (done ++ rest)) ∧
      ∀ last, rest.foldlM step registry = .ok last →
        IsCollecting start grammar (done ++ rest) [] last := by
  intro step
  -- Each child that is registered is done, and the registry is another one.
  induction rest generalizing done registry with
  | nil =>
    rw [append_nil]
    refine ⟨rfl, fun last hlast => ?_⟩
    obtain rfl := pure_eq_ok_iff.mp hlast
    exact h
  | cons id rest ih =>
    have hnamed := h.isNamed_eq id "define"
    rw [append_cons, map_cons, foldlM_cons, foldlM_cons]
    cases hdefine : start.isNamed id "define" with
    | false =>
      have hstep : step registry id = .ok registry := if_neg (Bool.eq_false_iff.mp hdefine)
      rw [h.among_other (hnamed.trans hdefine), hstep]
      exact ih h.next_other
    | true =>
      have hstep : step registry id = registry.register id := if_pos hdefine
      rw [h.register_eq (hnamed.trans hdefine), hstep]
      cases hregister : registry.register id with
      | error error => exact ⟨rfl, nofun⟩
      | ok next => exact ih (h.next (hnamed.trans hdefine) hregister)

/-- A registry after all definitions of a grammar element are registered. -/
structure IsRegistry (registry : Registry) (grammar : Nat) : Prop where
  /-- Parents and children agree. -/
  isForest : registry.forest.IsForest
  /-- What is registered is a definition among the children of the grammar element. -/
  mem_defines : ∀ name id, registry.ids.find? name = some id →
    id ∈ registry.defines (registry.forest.children grammar)

/-- **Registration in place** fails as the registration of the trees does, and otherwise the same is
registered. Names, attributes and the children of the grammar element stay as they are. -/
theorem collect_tree {forest : Forest} (h : forest.IsForest) (grammar : Nat) :
    Definitions.collect (forest.tree grammar) =
        (collect forest grammar).map (fun registry => registry.definitions grammar) ∧
      ∀ registry, collect forest grammar = .ok registry → registry.IsRegistry grammar ∧
        (∀ id, registry.forest.label id = forest.label id) ∧
        registry.forest.children grammar = forest.children grammar := by
  have hstart : IsCollecting forest grammar [] (forest.children grammar) ⟨forest, .empty⟩ :=
    ⟨h, fun _ => rfl, rfl, fun _ _ => rfl, nofun⟩
  obtain ⟨hsame, hlast⟩ := hstart.foldlM_register
  have hcollect : Definitions.collect (forest.tree grammar) =
      (collect forest grammar).map fun registry => registry.among (forest.children grammar) := by
    rw [Definitions.collect, h.children_tree, collect, foldlM_filter]
    exact hsame
  have hend : ∀ registry, collect forest grammar = .ok registry →
      IsCollecting forest grammar (forest.children grammar) [] registry := by
    rw [collect, foldlM_filter]
    exact hlast
  have hchildren : ∀ registry, collect forest grammar = .ok registry →
      registry.forest.children grammar = forest.children grammar := fun registry hregistry =>
    (hend registry hregistry).children_eq.trans (append_nil _)
  refine ⟨?_, fun registry hregistry => ?_⟩
  · rw [hcollect]
    cases hregistry : collect forest grammar with
    | error error => rfl
    | ok registry =>
      exact congrArg (fun ids => Except.ok (registry.among ids)) (hchildren registry hregistry).symm
  · have hcollecting := hend registry hregistry
    refine ⟨⟨hcollecting.isForest, fun name id hid => ?_⟩, hcollecting.label_eq,
      hchildren registry hregistry⟩
    exact hchildren registry hregistry ▸ hcollecting.mem_defines name id hid

end Registry

end RelaxSchema
