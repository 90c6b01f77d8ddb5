import RelaxSchema.Proofs.Grammar.Substitution

/-!
# Edits of a forest

The parent of an element and the children of its parent are kept apart, and an edit has to change
both. What stays true of a forest is that they agree, and that the way up from an element never
comes back to it (`Forest.IsForest`).

* `Forest.IsForest.detach`, `Forest.IsForest.attach`: an element may be taken out of its place, and
  put into any other one that is not at or below itself;
* `Forest.IsForest.replace_eq`: an element is replaced by putting the other one before it and taking
  it away;
* `Forest.IsForest.plant`: whole trees may be added;
* `Forest.Reached.isForest`: so whatever is made by such edits is a forest.

The way up after an element is attached either does not use its new place, and then it was there
before, or it passes through that, and then it comes from below the element and goes on above its
new parent (`Forest.transGen_of_edge`).
-/

namespace RelaxSchema.Forest

open List

variable {forest forest' : Forest}

/-! ### The way up -/

/-- An element is the parent of another one. -/
def HasParent (forest : Forest) (id parent : Nat) : Prop := forest.parent? id = some parent

/-- The way up from an element leads to another one. -/
def IsBelow (forest : Forest) : Nat → Nat → Prop := Relation.TransGen forest.HasParent

/-- An element is another one or below it. -/
def IsAtOrBelow (forest : Forest) : Nat → Nat → Prop := Relation.ReflTransGen forest.HasParent

/-- The way up starts at the parent. -/
theorem isBelow_iff {id ancestor : Nat} : forest.IsBelow id ancestor ↔
    ∃ parent, forest.parent? id = some parent ∧ forest.IsAtOrBelow parent ancestor :=
  Relation.TransGen.head'_iff

theorem isAtOrBelow_iff {id ancestor : Nat} :
    forest.IsAtOrBelow id ancestor ↔ id = ancestor ∨ forest.IsBelow id ancestor := by
  rw [IsAtOrBelow, Relation.reflTransGen_iff_eq_or_transGen, eq_comm]
  rfl

/-- Of two elements above a third one, one is at or below the other. -/
theorem IsAtOrBelow.total {id first second : Nat} (h : forest.IsAtOrBelow id first)
    (h' : forest.IsAtOrBelow id second) :
    forest.IsAtOrBelow first second ∨ forest.IsAtOrBelow second first :=
  Relation.ReflTransGen.total_of_right_unique
    (fun _ _ _ hfirst hsecond => Option.some.inj (hfirst.symm.trans hsecond)) h h'

/-- Where some parents are taken away, there are no new ways up. -/
theorem IsBelow.mono {id ancestor : Nat} (h : forest'.IsBelow id ancestor)
    (hparent : ∀ id parent, forest'.HasParent id parent → forest.HasParent id parent) :
    forest.IsBelow id ancestor :=
  Relation.TransGen.mono hparent _ _ h

/-- A way along the edges of a relation and one more either does without that edge, or passes
through it. -/
theorem transGen_of_edge {r r' : Nat → Nat → Prop} {source target : Nat}
    (hedge : ∀ first second, r' first second → r first second ∨ first = source ∧ second = target)
    {first last : Nat} (h : Relation.TransGen r' first last) : Relation.TransGen r first last ∨
      Relation.ReflTransGen r first source ∧ Relation.ReflTransGen r target last := by
  induction h with
  | single hstep =>
    rcases hedge _ _ hstep with hold | ⟨rfl, rfl⟩
    · exact .inl (.single hold)
    · exact .inr ⟨.refl, .refl⟩
  | tail _ hstep ih =>
    rcases hedge _ _ hstep with hold | ⟨rfl, rfl⟩
    · rcases ih with hwithout | ⟨hbefore, hafter⟩
      · exact .inl (hwithout.tail hold)
      · exact .inr ⟨hbefore, hafter.tail hold⟩
    · rcases ih with hwithout | ⟨hbefore, -⟩
      · exact .inr ⟨hwithout.to_reflTransGen, .refl⟩
      · exact .inr ⟨hbefore, .refl⟩

/-! ### Forests -/

/-- Parents and children agree, and no element is below itself. -/
structure IsForest (forest : Forest) : Prop where
  /-- An element is among the children of its parent, and of no other element. -/
  mem_children_iff : ∀ id parent, id ∈ forest.children parent ↔ forest.parent? id = some parent
  /-- No element comes twice among the children of another one. -/
  nodup_children : ∀ id, (forest.children id).Nodup
  /-- The way up does not come back. -/
  not_isBelow_self : ∀ id, ¬ forest.IsBelow id id

section IsForest

variable (h : forest.IsForest)

include h

theorem IsForest.isLinked : forest.IsLinked := fun id parent => (h.mem_children_iff id parent).mpr

/-- **No element occurs twice** among all children. -/
theorem IsForest.nodup_flatMap_children : ((range forest.size).flatMap forest.children).Nodup := by
  rw [nodup_flatMap]
  refine ⟨fun id _ => h.nodup_children id, nodup_range.imp fun hne => ?_⟩
  intro child hfirst hsecond
  rw [h.mem_children_iff] at hfirst hsecond
  exact hne (Option.some.inj (hfirst.symm.trans hsecond))

/-- A forest stays one if parents and children stay as they are. -/
theorem IsForest.congr (hparent : ∀ id, forest'.parent? id = forest.parent? id)
    (hchildren : ∀ id, forest'.children id = forest.children id) : forest'.IsForest where
  mem_children_iff id parent := by rw [hchildren, hparent, h.mem_children_iff]
  nodup_children id := hchildren id ▸ h.nodup_children id
  not_isBelow_self id hbelow :=
    h.not_isBelow_self id (hbelow.mono fun id parent hstep => (hparent id).symm.trans hstep)

/-! ### Adding and taking away -/

theorem IsForest.create (name : String) (attributes : Catalogue String) :
    (forest.create name attributes).IsForest := by
  refine h.congr (fun id => ?_) (fun id => ?_)
  · rw [parent?, node_create]
    split
    · rename_i hid
      rw [parent?, node_of_size_le hid.ge]
      rfl
    · rfl
  · rw [children, node_create]
    split
    · rename_i hid
      rw [children, node_of_size_le hid.ge]
      rfl
    · rfl

theorem IsForest.setAttribute {id : Nat} (hid : id < forest.size) (name value : String) :
    (forest.setAttribute id name value).IsForest := by
  refine h.congr (fun other => ?_) (fun other => ?_)
  · rw [parent?, Forest.setAttribute, node_change hid]
    split <;> rfl
  · rw [children, Forest.setAttribute, node_change hid]
    split <;> rfl

theorem IsForest.parent?_detach (id other : Nat) :
    (forest.detach id).parent? other = if other = id then none else forest.parent? other := by
  cases hparent : forest.parent? id with
  | none =>
    rw [detach_of_parent?_eq_none hparent]
    split
    · rename_i hsame
      rw [hsame, hparent]
    · rfl
  | some parent =>
    rw [parent?, node_detach hparent (lt_size_of_parent? hparent)
      (h.isLinked.parent_lt_size hparent)]

/-- An element is no child of any but its parent. -/
theorem IsForest.filter_children_of_ne {id other : Nat} (hne : forest.parent? id ≠ some other) :
    (forest.children other).filter (fun child => child ≠ id) = forest.children other := by
  refine filter_eq_self.mpr fun child hchild => decide_eq_true fun hsame => hne ?_
  rwa [← h.mem_children_iff, ← hsame]

/-- An element that is detached is no child any more. -/
theorem IsForest.children_detach (id other : Nat) :
    (forest.detach id).children other = (forest.children other).filter fun child => child ≠ id := by
  cases hparent : forest.parent? id with
  | none => rw [detach_of_parent?_eq_none hparent, h.filter_children_of_ne (by simp [hparent])]
  | some parent =>
    rw [children, node_detach hparent (lt_size_of_parent? hparent)
      (h.isLinked.parent_lt_size hparent)]
    split
    · rfl
    · rename_i hne
      rw [h.filter_children_of_ne]
      rw [hparent, ne_eq, Option.some.injEq]
      exact Ne.symm hne

theorem IsForest.hasParent_of_detach {id child parent : Nat}
    (hparent : (forest.detach id).HasParent child parent) : forest.HasParent child parent := by
  rw [HasParent, h.parent?_detach] at hparent
  split at hparent
  · cases hparent
  · exact hparent

/-- **An element may be taken out of its place.** -/
theorem IsForest.detach (id : Nat) : (forest.detach id).IsForest where
  mem_children_iff child parent := by
    rw [h.children_detach, h.parent?_detach, mem_filter, h.mem_children_iff, decide_eq_true_iff]
    split <;> simp [*]
  nodup_children other := by
    rw [h.children_detach]
    exact (h.nodup_children other).filter _
  not_isBelow_self other hbelow :=
    h.not_isBelow_self other (hbelow.mono fun _ _ => h.hasParent_of_detach)

end IsForest

/-! ### Moving -/

theorem perm_putBefore (id reference : Nat) (ids : List Nat) :
    putBefore id reference ids ~ id :: ids := by
  induction ids with
  | nil => exact .refl _
  | cons head rest ih =>
    rw [putBefore]
    split
    · exact .refl _
    · exact (ih.cons head).trans (.swap id head rest)

section Attach

variable {parent child : Nat} {place : List Nat → List Nat}

/-- To attach an element is to detach it first. -/
theorem IsForest.attach_detach (h : forest.IsForest) :
    (forest.detach child).attach parent child place = forest.attach parent child place := by
  have hroot : (forest.detach child).parent? child = none := by rw [h.parent?_detach, if_pos rfl]
  rw [attach, attach, detach_of_parent?_eq_none hroot]

/-- What attaching changes: the element has the new parent, and is a child of no other one. -/
theorem IsForest.node_attach (h : forest.IsForest) (hparent : parent < forest.size)
    (hchild : child < forest.size) (other : Nat) :
    (forest.attach parent child place).node other = { (forest.detach child).node other with
      children := if other = parent then place ((forest.children other).filter fun id => id ≠ child)
        else (forest.children other).filter fun id => id ≠ child
      parent := if other = child then some parent else forest.parent? other } := by
  have hroot : (forest.detach child).parent? child = none := by rw [h.parent?_detach, if_pos rfl]
  have hsize := size_detach forest child
  have hnode := Forest.node_attach hroot (hsize ▸ hchild) (hsize ▸ hparent) place other
  rw [h.attach_detach, h.children_detach, h.parent?_detach] at hnode
  rw [hnode]
  by_cases hother : other = child
  · simp only [if_pos hother]
  · simp only [if_neg hother]

theorem IsForest.parent?_attach (h : forest.IsForest) (hparent : parent < forest.size)
    (hchild : child < forest.size) (other : Nat) :
    (forest.attach parent child place).parent? other =
      if other = child then some parent else forest.parent? other := by
  rw [parent?, h.node_attach hparent hchild]

theorem IsForest.children_attach (h : forest.IsForest) (hparent : parent < forest.size)
    (hchild : child < forest.size) (other : Nat) :
    (forest.attach parent child place).children other =
      if other = parent then place ((forest.children other).filter fun id => id ≠ child)
      else (forest.children other).filter fun id => id ≠ child := by
  rw [children, h.node_attach hparent hchild]

/-- Only the element that is attached has another parent. -/
theorem IsForest.hasParent_of_attach (h : forest.IsForest) (hparent : parent < forest.size)
    (hchild : child < forest.size) {id upper : Nat}
    (hstep : (forest.attach parent child place).HasParent id upper) :
    forest.HasParent id upper ∨ id = child ∧ upper = parent := by
  rw [HasParent, h.parent?_attach hparent hchild] at hstep
  split at hstep
  · rename_i hid
    exact .inr ⟨hid, (Option.some.inj hstep).symm⟩
  · exact .inl hstep

/-- **An element may be put into any place that is not at or below itself.** -/
theorem IsForest.attach (h : forest.IsForest) (hparent : parent < forest.size)
    (hchild : child < forest.size) (habove : ¬ forest.IsAtOrBelow parent child)
    (hplace : ∀ ids, place ids ~ child :: ids) : (forest.attach parent child place).IsForest where
  mem_children_iff id other := by
    rw [h.children_attach hparent hchild, h.parent?_attach hparent hchild]
    have hfilter : id ∈ (forest.children other).filter (fun id => id ≠ child) ↔
        forest.parent? id = some other ∧ id ≠ child := by
      rw [mem_filter, h.mem_children_iff, decide_eq_true_iff]
    by_cases hid : id = child
    · rw [if_pos hid, Option.some.injEq]
      split
      · rename_i hother
        rw [(hplace _).mem_iff, mem_cons]
        exact iff_of_true (.inl hid) hother.symm
      · rename_i hother
        rw [hfilter]
        exact iff_of_false (fun hmem => hmem.2 hid) (Ne.symm hother)
    · rw [if_neg hid]
      split
      · rw [(hplace _).mem_iff, mem_cons, hfilter]
        exact ⟨fun hmem => hmem.elim (absurd · hid) And.left, fun hmem => .inr ⟨hmem, hid⟩⟩
      · rw [hfilter]
        exact ⟨And.left, fun hmem => ⟨hmem, hid⟩⟩
  nodup_children other := by
    have hnodup := (h.nodup_children other).filter fun id => id ≠ child
    rw [h.children_attach hparent hchild]
    split
    · rw [(hplace _).nodup_iff, nodup_cons]
      exact ⟨fun hmem => of_decide_eq_true (mem_filter.mp hmem).2 rfl, hnodup⟩
    · exact hnodup
  not_isBelow_self id hbelow := by
    have hedge := @IsForest.hasParent_of_attach forest parent child place h hparent hchild
    rcases transGen_of_edge (fun _ _ => hedge) hbelow with hold | ⟨hbefore, hafter⟩
    · exact h.not_isBelow_self id hold
    · exact habove (hafter.trans hbefore)

end Attach

/-! ### Replacing -/

theorem ext_node (hsize : forest.size = forest'.size)
    (hnode : ∀ id, forest.node id = forest'.node id) : forest = forest' := by
  obtain ⟨nodes⟩ := forest
  obtain ⟨nodes'⟩ := forest'
  congr 1
  refine Array.ext hsize fun id hid hid' => ?_
  have hid := hnode id
  simpa [node, *] using hid

/-- An id that is put before another one stands in its place after that is taken away. -/
theorem filter_putBefore {old new : Nat} {ids : List Nat} (hnodup : ids.Nodup) (hold : old ∈ ids)
    (hne : new ≠ old) : (putBefore new old ids).filter (fun id => id ≠ old) =
      ids.replace old new := by
  induction ids with
  | nil => cases hold
  | cons head rest ih =>
    obtain ⟨hhead, hrest⟩ := nodup_cons.mp hnodup
    by_cases hsame : head = old
    · subst hsame
      have hkept : rest.filter (fun id => id ≠ head) = rest := by
        rw [filter_eq_self]
        exact fun id hid => decide_eq_true fun hid' => hhead (hid' ▸ hid)
      rw [putBefore, if_pos rfl, filter_cons_of_pos (by simpa using hne),
        filter_cons_of_neg (by simp), hkept, replace_cons_self]
    · have hbeq : (old == head) = false := by simpa using Ne.symm hsame
      have hmem := (mem_cons.mp hold).resolve_left (Ne.symm hsame)
      rw [putBefore, if_neg hsame, filter_cons_of_pos (by simpa using hsame), ih hrest hmem,
        replace_cons, hbeq]

section Replace

variable {old new parent : Nat}

theorem node_replace (hparent : forest.parent? old = some parent) (hold : old < forest.size)
    (hnew : new < forest.size) (hsize : parent < forest.size) (other : Nat) :
    (forest.replace old new).node other = { (forest.detach new).node other with
      children := if other = parent then ((forest.detach new).children other).replace old new
        else (forest.detach new).children other
      parent := if other = old then none else if other = new then some parent
        else (forest.detach new).parent? other } := by
  have hdetach := size_detach forest new
  rw [Forest.replace, hparent]
  dsimp only
  rw [setParent,
    node_change (by rwa [setParent, size_change, changeChildren, size_change, hdetach]),
    setParent, node_change (by rwa [changeChildren, size_change, hdetach]), changeChildren,
    node_change (by rwa [hdetach])]
  split <;> split <;> split <;> rfl

/-- **Replacing an element** is putting the other one before it and taking it away. -/
theorem IsForest.replace_eq (h : forest.IsForest) (hparent : forest.parent? old = some parent)
    (hne : new ≠ old) (hnew : new < forest.size) (habove : ¬ forest.IsAtOrBelow parent new) :
    forest.replace old new = (forest.insertBefore parent new old).detach old := by
  have hold := lt_size_of_parent? hparent
  have hsize := h.isLinked.parent_lt_size hparent
  have hforest : (forest.insertBefore parent new old).IsForest :=
    h.attach hsize hnew habove (perm_putBefore new old)
  have hsame : (forest.insertBefore parent new old).size = forest.size :=
    size_attach forest parent new _
  have hkept : (forest.insertBefore parent new old).parent? old = some parent := by
    rw [insertBefore, h.parent?_attach hsize hnew, if_neg (Ne.symm hne), hparent]
  refine ext_node ?_ fun other => ?_
  · rw [size_detach, hsame, Forest.replace, hparent]
    dsimp only
    rw [setParent, size_change, setParent, size_change, changeChildren, size_change, size_detach]
  have hnode : (forest.attach parent new (putBefore new old)).node other = _ :=
    h.node_attach hsize hnew other
  have hmem : old ∈ (forest.children parent).filter fun id => id ≠ new :=
    mem_filter.mpr ⟨(h.mem_children_iff old parent).mpr hparent, decide_eq_true (Ne.symm hne)⟩
  have hplace := filter_putBefore ((h.nodup_children parent).filter _) hmem hne
  rw [node_replace hparent hold hnew hsize, node_detach hkept (hsame ▸ hold) (hsame ▸ hsize),
    insertBefore, hnode, h.children_attach hsize hnew, h.parent?_attach hsize hnew,
    h.children_detach, h.parent?_detach]
  refine congrArg₂ (fun children parent =>
    { (forest.detach new).node other with children := children, parent := parent }) ?_ ?_
  · by_cases hother : other = parent
    · rw [if_pos hother, if_pos hother, if_pos hother, hother, hplace]
    · rw [if_neg hother, if_neg hother, if_neg hother]
  · split
    · rfl
    · split <;> rfl

/-- An element that is to replace itself is taken away. -/
theorem IsForest.replace_self (h : forest.IsForest) (hparent : forest.parent? old = some parent) :
    forest.replace old old = forest.detach old := by
  have hold := lt_size_of_parent? hparent
  refine ext_node ?_ fun other => ?_
  · rw [Forest.replace, hparent]
    dsimp only
    rw [setParent, size_change, setParent, size_change, changeChildren, size_change]
  have hkept : ∀ id, ((forest.detach old).children id).replace old old =
      (forest.detach old).children id := by
    intro id
    rw [h.children_detach]
    exact replace_of_not_mem fun hmem => of_decide_eq_true (mem_filter.mp hmem).2 rfl
  rw [node_replace hparent hold hold (h.isLinked.parent_lt_size hparent), hkept, ite_self,
    h.parent?_detach]
  by_cases hother : other = old
  · have hnone : (forest.detach old).parent? other = none := by rw [h.parent?_detach, if_pos hother]
    rw [if_pos hother, ← hnone]
    rfl
  · have hsame : (forest.detach old).parent? other = forest.parent? other := by
      rw [h.parent?_detach, if_neg hother]
    rw [if_neg hother, if_neg hother, if_neg hother, ← hsame]
    rfl

/-- **An element may take the place of any that is not below it.** -/
theorem IsForest.replace (h : forest.IsForest) (hnew : new < forest.size)
    (habove : ¬ forest.IsBelow old new) : (forest.replace old new).IsForest := by
  cases hparent : forest.parent? old with
  | none =>
    rw [Forest.replace, hparent]
    exact h
  | some parent =>
    by_cases hne : new = old
    · rw [hne, h.replace_self hparent]
      exact h.detach old
    · have hup : ¬ forest.IsAtOrBelow parent new :=
        fun hup => habove (isBelow_iff.mpr ⟨parent, hparent, hup⟩)
      rw [h.replace_eq hparent hne hnew hup]
      exact (h.attach (h.isLinked.parent_lt_size hparent) hnew hup (perm_putBefore new old)).detach
        old

end Replace

/-! ### Planting -/

/-- From an element that was there before a tree was planted, the way up does not lead to the
tree. -/
theorem IsForest.not_isAtOrBelow_plant (h : forest.IsForest) (tree : Tree) {parent : Nat}
    (hparent : parent < forest.size) : ¬ (forest.plant tree).IsAtOrBelow parent forest.size := by
  obtain ⟨planted, -, hplanted⟩ := isPlanted_plant tree forest
  suffices hlt : ∀ ancestor, (forest.plant tree).IsAtOrBelow parent ancestor →
      ancestor < forest.size from
    fun hbelow => (hlt _ hbelow).false
  intro ancestor hbelow
  induction hbelow with
  | refl => exact hparent
  | tail _ hstep ih =>
    rw [HasParent, parent?, hplanted.node_eq _ ih] at hstep
    exact h.isLinked.parent_lt_size hstep

mutual

/-- **A tree may be added.** -/
theorem IsForest.plant {forest : Forest} (h : forest.IsForest) :
    ∀ tree : Tree, (forest.plant tree).IsForest
  | ⟨name, attributes, children⟩ => by
    have hsize := size_create forest name attributes
    rw [Forest.plant]
    exact (h.create name attributes).plantAll (hsize ▸ forest.size.lt_succ_self) children

theorem IsForest.plantAll {forest : Forest} (h : forest.IsForest) {parent : Nat}
    (hparent : parent < forest.size) : ∀ trees : List Tree, (forest.plantAll parent trees).IsForest
  | [] => h
  | tree :: rest => by
    obtain ⟨planted, -, hplanted⟩ := isPlanted_plant tree forest
    have hsize := hplanted.size_lt
    have hlt := hparent.trans hsize
    have happend : ((forest.plant tree).append parent forest.size).IsForest :=
      (h.plant tree).attach hlt hsize (h.not_isAtOrBelow_plant tree hparent)
        fun ids => perm_append_singleton forest.size ids
    have hsame : ((forest.plant tree).append parent forest.size).size = (forest.plant tree).size :=
      size_attach _ _ _ _
    rw [Forest.plantAll]
    exact happend.plantAll (hsame ▸ hlt) rest

end

theorem isForest_empty : IsForest {} where
  mem_children_iff id parent := by
    constructor
    · exact fun hmem => absurd (lt_size_of_mem_children hmem) (Nat.not_lt_zero parent)
    · exact fun hparent => absurd (lt_size_of_parent? hparent) (Nat.not_lt_zero id)
  nodup_children id := by
    rw [children, node_of_size_le (Nat.zero_le id)]
    exact nodup_nil
  not_isBelow_self id hbelow := by
    obtain ⟨parent, hparent, -⟩ := isBelow_iff.mp hbelow
    exact Nat.not_lt_zero id (lt_size_of_parent? hparent)

/-! ### Sequences of edits -/

/-- An edit of a forest. -/
inductive Edit
  /-- An element is added, without attributes. -/
  | create (name : String)
  /-- An attribute of an element is set. -/
  | setAttribute (id : Nat) (name value : String)
  /-- An element of another forest is copied without its children. -/
  | copy (other : Forest) (id : Nat)
  /-- An element of another forest is copied with all that is below it. -/
  | copyTree (other : Forest) (id : Nat)
  /-- An element is taken away from its parent. -/
  | detach (id : Nat)
  /-- An element is moved to the end of the children of another one. -/
  | append (parent child : Nat)
  /-- An element is moved before a child of another one. -/
  | insertBefore (parent child reference : Nat)
  /-- An element is moved to the place of another one. -/
  | replace (old new : Nat)

/-- The forest after an edit. -/
def edit (forest : Forest) : Edit → Forest
  | .create name => forest.create name .empty
  | .setAttribute id name value => forest.setAttribute id name value
  | .copy other id => forest.copy other id
  | .copyTree other id => forest.copyTree other id
  | .detach id => forest.detach id
  | .append parent child => forest.append parent child
  | .insertBefore parent child reference => forest.insertBefore parent child reference
  | .replace old new => forest.replace old new

/-- The elements of an edit exist. None is moved into itself or into one below it, and none takes
the place of one below it. -/
def Allows (forest : Forest) : Edit → Prop
  | .create _ => True
  | .setAttribute id _ _ => id < forest.size
  | .copy other id => id < other.size
  | .copyTree other id => id < other.size
  | .detach id => id < forest.size
  | .append parent child =>
    parent < forest.size ∧ child < forest.size ∧ ¬ forest.IsAtOrBelow parent child
  | .insertBefore parent child _ =>
    parent < forest.size ∧ child < forest.size ∧ ¬ forest.IsAtOrBelow parent child
  | .replace old new => old < forest.size ∧ new < forest.size ∧ ¬ forest.IsBelow old new

/-- A forest that is made from one element or from a document by edits. -/
inductive Reached : Forest → Prop
  /-- One element. -/
  | single (name : String) : Reached (create {} name .empty)
  /-- The elements of a document. -/
  | ofTree (tree : Tree) : Reached (ofTree tree)
  /-- One edit more. -/
  | edit {forest : Forest} {edit : Edit} : Reached forest → forest.Allows edit →
      Reached (forest.edit edit)

/-- **An edit keeps a forest.** -/
theorem IsForest.edit (h : forest.IsForest) :
    ∀ {edit : Edit}, forest.Allows edit → (forest.edit edit).IsForest
  | .create name, _ => h.create name .empty
  | .setAttribute _ name value, hid => h.setAttribute hid name value
  | .copy _ _, _ => h.create _ _
  | .copyTree _ _, _ => h.plant _
  | .detach id, _ => h.detach id
  | .append _ child, ⟨hparent, hchild, habove⟩ =>
    h.attach hparent hchild habove fun ids => perm_append_singleton child ids
  | .insertBefore _ child reference, ⟨hparent, hchild, habove⟩ =>
    h.attach hparent hchild habove (perm_putBefore child reference)
  | .replace _ _, ⟨_, hnew, habove⟩ => h.replace hnew habove

/-- **Whatever is made by edits is a forest.** -/
theorem Reached.isForest (h : forest.Reached) : forest.IsForest := by
  induction h with
  | single name => exact isForest_empty.create name .empty
  | ofTree tree => exact isForest_empty.plant tree
  | edit _ hallows ih => exact ih.edit hallows

end RelaxSchema.Forest
