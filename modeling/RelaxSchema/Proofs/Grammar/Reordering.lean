import RelaxSchema.Proofs.Grammar.Marking

/-!
# Children of a grammar element in another order

* `Definitions.reorders_foldl_mark`: children in another order are registered in the same way, as
  long as the definitions of one name keep their order;
* `Definitions.Reorders.stripMarked`, `Definitions.Reorders.elements_perm`,
  `Definitions.Reorders.find?_registers`: what is read afterwards is the same, up to the order.

Definitions of different names have nothing to do with each other: what registration makes of those
of one name is what it makes of them alone (`Definitions.filter_foldl_mark`). So in both orders the
marked definitions of each name are the same, and all together they are permutations of each other.
-/

namespace RelaxSchema.Definitions

open List RelaxSchema.Tree

namespace Child

/-- Whether the child is a definition of a name, registered or not. -/
def defines (name : String) (child : Child) : Bool := isDefineOf name child.tree

/-- Whether the child is no definition. -/
def isOther (child : Child) : Bool := !isDefine child.tree

end Child

/-! ### Registration of some of the children -/

section Mark

variable {name : String} {tree : Tree} {children : List Child}

theorem isDefine_of_isDefineOf (h : isDefineOf name tree = true) : isDefine tree = true :=
  (Bool.and_eq_true_iff.mp h).1

theorem isOther_update (combined : Bool) (tree : Tree) (child : Child) :
    (child.update combined tree).isOther = child.isOther := by
  unfold Child.update Child.extend Child.unregister
  split
  · split <;> split <;> rfl
  · rfl

theorem isOther_next (combined : Bool) (tree : Tree) :
    (Child.next combined tree).isOther = !isDefine tree := by
  unfold Child.next
  split <;> rfl

/-- What is met is a definition, and meets a definition. -/
theorem isDefine_of_isMetBy {child : Child} (h : child.isMetBy tree = true) :
    isDefine tree = true ∧ isDefine child.tree = true := by
  rw [Child.isMetBy, Bool.and_eq_true, Option.any_eq_true] at h
  obtain ⟨hdefine, other, -, hregisters⟩ := h
  exact ⟨hdefine, isDefine_of_isDefineOf (isDefineOf_of_registers hregisters)⟩

/-- The definitions of a name are marked apart from the others. -/
theorem filter_mark_of_isDefineOf (h : isDefineOf name tree = true) :
    (mark children tree).filter (Child.defines name) =
      mark (children.filter (Child.defines name)) tree :=
  filter_mark_of_pos (isDefineOf_update name · tree)
    (fun _ hmet => (isDefineOf_of_isMetBy hmet).trans h) fun combined =>
      (isDefineOf_next name combined tree).trans h

/-- The definitions of a name do not change with those of other names. -/
theorem filter_mark_of_not_isDefineOf (h : isDefineOf name tree = false) :
    (mark children tree).filter (Child.defines name) = children.filter (Child.defines name) :=
  filter_mark_of_neg (isDefineOf_update name · tree)
    (fun _ hmet => (isDefineOf_of_isMetBy hmet).trans h) fun combined =>
      (isDefineOf_next name combined tree).trans h

/-- **Registration treats the definitions of a name as if there were no others.** -/
theorem filter_foldl_mark (name : String) (trees : List Tree) (children : List Child) :
    (trees.foldl mark children).filter (Child.defines name) =
      (trees.filter (isDefineOf name)).foldl mark (children.filter (Child.defines name)) := by
  induction trees generalizing children with
  | nil => rfl
  | cons tree rest ih =>
    rw [foldl_cons, ih]
    cases hname : isDefineOf name tree with
    | true => rw [filter_cons_of_pos hname, foldl_cons, filter_mark_of_isDefineOf hname]
    | false =>
      rw [filter_cons_of_neg (Bool.eq_false_iff.mp hname), filter_mark_of_not_isDefineOf hname]

/-- Children that are no definitions stay as they are. -/
theorem filter_isOther_mark (children : List Child) (tree : Tree) :
    (mark children tree).filter Child.isOther =
      children.filter Child.isOther ++ ([tree].filter fun tree => !isDefine tree).map
        (Child.mk · false) := by
  have hother : ∀ child : Child, child.isMetBy tree = true → child.isOther = false := by
    intro child hmet
    rw [Child.isOther, (isDefine_of_isMetBy hmet).2]
    rfl
  cases hdefine : isDefine tree with
  | true =>
    rw [filter_mark_of_neg (isOther_update · tree) hother fun combined => by
      rw [isOther_next, hdefine]; rfl]
    rw [filter_cons_of_neg (by rw [hdefine]; simp)]
    exact (append_nil _).symm
  | false =>
    have hnone : ∀ child : Child, ¬ child.isMetBy tree = true := fun child hmet =>
      Bool.false_ne_true (hdefine.symm.trans (isDefine_of_isMetBy hmet).1)
    have hcombines : combines (children.filter Child.isOther) tree = false := by
      rw [combines, any_eq_false.mpr fun child _ => hnone child, Bool.and_false]
    rw [filter_mark_of_pos (isOther_update · tree) (fun child hmet => absurd hmet (hnone child))
      fun combined => by rw [isOther_next, hdefine]; rfl]
    rw [mark, map_eq_self fun child _ => update_other hdefine _ child, hcombines, Child.next,
      hdefine, filter_cons_of_pos (by rw [hdefine]; rfl)]
    rfl

theorem filter_isOther_foldl_mark (trees : List Tree) (children : List Child) :
    (trees.foldl mark children).filter Child.isOther = children.filter Child.isOther ++
      (trees.filter fun tree => !isDefine tree).map (Child.mk · false) := by
  induction trees generalizing children with
  | nil => exact (append_nil _).symm
  | cons tree rest ih =>
    rw [foldl_cons, ih, filter_isOther_mark, append_assoc, ← map_append, ← filter_append]
    rfl

/-- The children have the names of the trees that are registered. -/
theorem exists_defines_of_mem_mark
    (hchildren : ∀ child ∈ children, child.isOther = true ∨ ∃ name, child.defines name = true)
    (htree : isDefine tree = true → ∃ name, tree.attribute? "name" = some name) :
    ∀ child ∈ mark children tree, child.isOther = true ∨ ∃ name, child.defines name = true := by
  intro child hchild
  rcases mem_append.mp hchild with hchild | hchild
  · obtain ⟨before, hbefore, rfl⟩ := mem_map.mp hchild
    rw [isOther_update]
    refine (hchildren before hbefore).imp_right fun ⟨name, hname⟩ => ⟨name, ?_⟩
    exact (isDefineOf_update name _ tree before).trans hname
  · obtain rfl := mem_singleton.mp hchild
    rw [isOther_next]
    cases hdefine : isDefine tree with
    | false => exact .inl rfl
    | true =>
      obtain ⟨name, hname⟩ := htree hdefine
      refine .inr ⟨name, (isDefineOf_next name _ tree).trans ?_⟩
      rw [isDefineOf, hdefine, hname]
      exact decide_eq_true rfl

theorem exists_defines_of_mem_foldl_mark {trees : List Tree}
    (htrees : ∀ tree ∈ trees, isDefine tree = true → ∃ name, tree.attribute? "name" = some name)
    (hchildren : ∀ child ∈ children, child.isOther = true ∨ ∃ name, child.defines name = true) :
    ∀ child ∈ trees.foldl mark children, child.isOther = true ∨ ∃ name,
      child.defines name = true := by
  induction trees generalizing children with
  | nil => exact hchildren
  | cons tree rest ih =>
    obtain ⟨htree, hrest⟩ := forall_mem_cons.mp htrees
    exact ih hrest (exists_defines_of_mem_mark hchildren htree)

end Mark

/-! ### Children in another order -/

/-- The same children in another order, in which the definitions of one name keep theirs. -/
structure Reorders (children children' : List Child) : Prop where
  /-- They are the same. -/
  perm : children' ~ children
  /-- The definitions of a name are in the same order. -/
  filter_eq : ∀ name, children'.filter (Child.defines name) = children.filter (Child.defines name)

/-- Children that agree on each name and on what is no definition are the same up to the order. -/
theorem perm_of_filter {children children' : List Child}
    (h : ∀ child ∈ children, child.isOther = true ∨ ∃ name, child.defines name = true)
    (h' : ∀ child ∈ children', child.isOther = true ∨ ∃ name, child.defines name = true)
    (hdefines : ∀ name, children'.filter (Child.defines name) =
      children.filter (Child.defines name))
    (hothers : children'.filter Child.isOther ~ children.filter Child.isOther) :
    children' ~ children := by
  classical
  rw [perm_iff_count]
  intro child
  -- A child is counted among its like.
  by_cases hother : child.isOther = true
  · rw [← count_filter (l := children') hother, ← count_filter (l := children) hother]
    exact hothers.count_eq child
  · by_cases hname : ∃ name, child.defines name = true
    · obtain ⟨name, hname⟩ := hname
      rw [← count_filter (l := children') hname, ← count_filter (l := children) hname, hdefines]
    · have hneither : ¬ (child.isOther = true ∨ ∃ name, child.defines name = true) :=
        not_or.mpr ⟨hother, hname⟩
      rw [count_eq_zero_of_not_mem fun hmem => hneither (h' child hmem),
        count_eq_zero_of_not_mem fun hmem => hneither (h child hmem)]

/-- **Registration does not depend on the order of definitions of different names.** -/
theorem reorders_foldl_mark {trees trees' : List Tree}
    (hnames : ∀ tree ∈ trees, isDefine tree = true → ∃ name, tree.attribute? "name" = some name)
    (hperm : trees' ~ trees)
    (horder : ∀ name, trees'.filter (isDefineOf name) = trees.filter (isDefineOf name)) :
    Reorders (trees.foldl mark []) (trees'.foldl mark []) := by
  have hfilter : ∀ name, (trees'.foldl mark []).filter (Child.defines name) =
      (trees.foldl mark []).filter (Child.defines name) := by
    intro name
    rw [filter_foldl_mark, filter_foldl_mark, horder]
  refine ⟨perm_of_filter ?_ ?_ hfilter ?_, hfilter⟩
  · exact exists_defines_of_mem_foldl_mark hnames fun child hchild => absurd hchild not_mem_nil
  · exact exists_defines_of_mem_foldl_mark (fun tree htree => hnames tree (hperm.mem_iff.mp htree))
      fun child hchild => absurd hchild not_mem_nil
  · rw [filter_isOther_foldl_mark, filter_isOther_foldl_mark]
    exact ((hperm.filter _).map _).append_left _

/-! ### What is read -/

section Reading

variable {children children' : List Child}

/-- The registered definition of a name is the same. -/
theorem Reorders.find?_registers (h : Reorders children children') (name : String) :
    children'.find? (Child.registers name) = children.find? (Child.registers name) := by
  have hamong : ∀ children : List Child, children.find? (Child.registers name) =
      (children.filter (Child.defines name)).find? (Child.registers name) := by
    intro children
    rw [find?_filter]
    congr 1
    funext child
    cases hregisters : child.registers name with
    | false => simp
    | true => simp [Child.defines, isDefineOf_of_registers hregisters]
  rw [hamong children, hamong children', h.filter_eq]

/-- The same elements are defined, in another order. -/
theorem Reorders.elements_perm (h : Reorders children children') :
    (children'.flatMap fun child => elementsBelow child.registered child.tree.children) ~
      children.flatMap fun child => elementsBelow child.registered child.tree.children :=
  h.perm.flatMap_right _

theorem filter_stripMarked (names : List String) (name : String) (children : List Child) :
    (stripMarked names children).filter (Child.defines name) =
      stripMarked names (children.filter (Child.defines name)) := by
  induction children with
  | nil => rfl
  | cons child rest ih =>
    by_cases hremoved : isRemoved names child.tree = true
    · -- Only what is no definition is removed.
      have hother : ¬ child.defines name = true := fun hname =>
        not_isRemoved_of_isDefine (isDefine_of_isDefineOf hname) hremoved
      rw [stripMarked_of_isRemoved hremoved, filter_cons_of_neg hother, ih]
    · have hkept : Child.defines name { child with tree := stripTree names child.tree } =
          child.defines name := by
        rw [Child.defines, Child.defines, isDefineOf, isDefineOf, isDefine_stripTree]
        cases child.tree
        rfl
      rw [stripMarked_of_not_isRemoved hremoved]
      by_cases hname : child.defines name = true
      · rw [filter_cons_of_pos (hkept.trans hname), filter_cons_of_pos hname,
          stripMarked_of_not_isRemoved hremoved, ih]
      · rw [filter_cons_of_neg (hkept ▸ hname), filter_cons_of_neg hname, ih]

/-- Names are removed from both. -/
theorem Reorders.stripMarked (h : Reorders children children') (names : List String) :
    Reorders (stripMarked names children) (stripMarked names children') := by
  refine ⟨h.perm.filterMap _, fun name => ?_⟩
  rw [filter_stripMarked, filter_stripMarked, h.filter_eq]

end Reading

end RelaxSchema.Definitions
