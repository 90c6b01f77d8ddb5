import RelaxSchema.Schema.Compilation
import RelaxSchema.Proofs.Grammar.GrammarElement
import RelaxSchema.Proofs.Grammar.Marking
import RelaxSchema.Proofs.Grammar.References

/-!
# Overridden definitions

A definition that is not to be combined takes the place of the earlier ones of its name, which stay
behind in the tree and may have received children of definitions that are combined with them.

* `Schema.compileTree_withoutOverridden`: it makes no difference that they are there, unless
  something is below them that counts wherever it stands.

The two grammars are registered side by side. Up to the definition that overrides, the second one
has the same marked children without the definitions of the name (`Definitions.IsWithout`). From
there on the definitions that are missing are not registered (`Definitions.Leaves`), and nothing is
read from those.
-/

namespace RelaxSchema

open List RelaxSchema.Tree

/-! ### Computations that fail alike -/

/-- Two computations end with the same error, or with related values. -/
inductive Alike {ε α β : Type} (R : α → β → Prop) : Except ε α → Except ε β → Prop
  /-- Both end with a value. -/
  | ok {value : α} {value' : β} : R value value' → Alike R (.ok value) (.ok value')
  /-- Both end with the same error. -/
  | error {error : ε} : Alike R (.error error) (.error error)

section Alike

variable {ε α β γ δ : Type} {R : α → β → Prop} {S : γ → δ → Prop} {first : Except ε α}
    {second : Except ε β}

theorem Alike.bind (h : Alike R first second) {f : α → Except ε γ} {g : β → Except ε δ}
    (hnext : ∀ value value', R value value' → Alike S (f value) (g value')) :
    Alike S (first >>= f) (second >>= g) := by
  cases h with
  | ok hvalue => exact hnext _ _ hvalue
  | error => exact .error

theorem Alike.bind_eq (h : Alike R first second) {f : α → Except ε γ} {g : β → Except ε γ}
    (hnext : ∀ value value', R value value' → f value = g value') : first >>= f = second >>= g := by
  cases h with
  | ok hvalue => exact hnext _ _ hvalue
  | error => rfl

theorem Alike.foldlM {f : α → γ → Except ε α} {g : β → γ → Except ε β} {entries : List γ}
    (hstep : ∀ entry ∈ entries, ∀ state state', R state state' →
      Alike R (f state entry) (g state' entry)) {state : α} {state' : β} (hstart : R state state') :
    Alike R (entries.foldlM f state) (entries.foldlM g state') := by
  induction entries generalizing state state' with
  | nil => exact .ok hstart
  | cons entry rest ih =>
    rw [foldlM_cons, foldlM_cons]
    exact (hstep entry mem_cons_self state state' hstart).bind fun _ _ hnext =>
      ih (fun other hother => hstep other (mem_cons_of_mem _ hother)) hnext

end Alike

namespace Definitions

/-! ### What is overridden -/

/-- Whether a node is a definition that takes the place of the earlier ones of its name. -/
def overrides (name : String) (tree : Tree) : Bool :=
  isDefineOf name tree && tree.attribute? "combine" ≠ some "interleave"

/-- The definitions of a name the place of which is taken by a later one. -/
def overridden (name : String) : List Tree → List Tree
  | [] => []
  | tree :: rest =>
    if isDefineOf name tree && rest.any (overrides name) then tree :: overridden name rest
    else overridden name rest

/-- Children of a grammar element without the overridden definitions of a name. -/
def withoutOverridden (name : String) : List Tree → List Tree
  | [] => []
  | tree :: rest =>
    if isDefineOf name tree && rest.any (overrides name) then withoutOverridden name rest
    else tree :: withoutOverridden name rest

/-- Nothing is below a node that counts wherever it stands in a grammar. -/
def HidesNothing (tree : Tree) : Prop :=
  ∀ node ∈ tree.descendants, node.name ∉ ["define", "start", "removed",
    "not-implemented", "elementType"]

instance (tree : Tree) : Decidable (HidesNothing tree) :=
  inferInstanceAs (Decidable (∀ node ∈ tree.descendants,
    node.name ∉ ["define", "start", "removed", "not-implemented", "elementType"]))

section Overridden

variable {name : String} {trees : List Tree}

/-- Without a definition that overrides, nothing is overridden. -/
theorem withoutOverridden_eq_self (h : trees.any (overrides name) = false) :
    withoutOverridden name trees = trees := by
  induction trees with
  | nil => rfl
  | cons tree rest ih =>
    rw [any_cons, Bool.or_eq_false_iff] at h
    rw [withoutOverridden, h.2, Bool.and_false, if_neg Bool.false_ne_true, ih h.2]

theorem overridden_eq_nil (h : trees.any (overrides name) = false) :
    overridden name trees = [] := by
  induction trees with
  | nil => rfl
  | cons tree rest ih =>
    rw [any_cons, Bool.or_eq_false_iff] at h
    rw [overridden, h.2, Bool.and_false, if_neg Bool.false_ne_true, ih h.2]

/-- The overridden definitions are those before the last one that overrides. -/
theorem exists_last_overrides (h : trees.any (overrides name) = true) :
    ∃ before last after, trees = before ++ last :: after ∧ overrides name last = true ∧
      overridden name trees = before.filter (isDefineOf name) ∧
      withoutOverridden name trees =
        (before.filter fun tree => !isDefineOf name tree) ++ last :: after := by
  induction trees with
  | nil => simp at h
  | cons tree rest ih =>
    cases hrest : rest.any (overrides name) with
    | true =>
      obtain ⟨before, last, after, hsplit, hlast, hoverridden, hwithout⟩ := ih hrest
      refine ⟨tree :: before, last, after, by rw [hsplit, cons_append], hlast, ?_, ?_⟩
      · rw [overridden, hrest, Bool.and_true, hoverridden, filter_cons]
      · rw [withoutOverridden, hrest, Bool.and_true, hwithout, filter_cons]
        cases isDefineOf name tree <;> rfl
    | false =>
      rw [any_cons, hrest, Bool.or_false] at h
      refine ⟨[], tree, rest, rfl, h, ?_, ?_⟩
      · rw [overridden, hrest, Bool.and_false, if_neg Bool.false_ne_true, overridden_eq_nil hrest]
        rfl
      · rw [withoutOverridden, hrest, Bool.and_false, if_neg Bool.false_ne_true,
          withoutOverridden_eq_self hrest]
        rfl

end Overridden

/-! ### Marked children that are left -/

/-- A child is a definition that is not registered, and hides nothing. -/
structure Child.IsDead (child : Child) : Prop where
  /-- It is not registered. -/
  registered_eq : child.registered = false
  /-- It is a definition. -/
  isDefine : isDefine child.tree = true
  /-- It hides nothing. -/
  hidesNothing : HidesNothing child.tree

/-- Some children are left of others, from which dead ones are taken away. -/
inductive Leaves : List Child → List Child → Prop
  /-- No child. -/
  | nil : Leaves [] []
  /-- A child is left. -/
  | keep {child : Child} {rest rest' : List Child} : Leaves rest rest' →
      Leaves (child :: rest) (child :: rest')
  /-- A dead one is not. -/
  | drop {child : Child} {rest rest' : List Child} : child.IsDead → Leaves rest rest' →
      Leaves (child :: rest) rest'

section Leaves

variable {name : String} {children children' : List Child} {tree : Tree}

theorem Child.IsDead.not_registers {child : Child} (h : child.IsDead) (name : String) :
    ¬ child.registers name = true := by
  rw [Child.registers, h.registered_eq, Bool.false_and]
  exact Bool.false_ne_true

theorem Leaves.refl : ∀ children : List Child, Leaves children children
  | [] => .nil
  | _ :: rest => .keep (refl rest)

theorem Leaves.append_right (h : Leaves children children') (more : List Child) :
    Leaves (children ++ more) (children' ++ more) := by
  induction h with
  | nil => exact .refl more
  | keep _ ih => exact .keep ih
  | drop hdead _ ih => exact .drop hdead ih

theorem Leaves.map (h : Leaves children children') {f : Child → Child}
    (hf : ∀ child : Child, child.IsDead → f child = child) :
    Leaves (children.map f) (children'.map f) := by
  induction h with
  | nil => exact .nil
  | keep _ ih => exact .keep ih
  | @drop child _ _ hdead _ ih =>
    rw [map_cons, hf child hdead]
    exact .drop hdead ih

theorem Leaves.find?_registers (h : Leaves children children') (name : String) :
    children'.find? (Child.registers name) = children.find? (Child.registers name) := by
  induction h with
  | nil => rfl
  | keep _ ih => rw [find?_cons, find?_cons, ih]
  | drop hdead _ ih => rw [find?_cons_of_neg (hdead.not_registers name), ih]

theorem Child.IsDead.not_isMetBy {child : Child} (h : child.IsDead) (tree : Tree) :
    ¬ child.isMetBy tree = true := by
  intro hmet
  rw [Child.isMetBy, Bool.and_eq_true, Option.any_eq_true] at hmet
  obtain ⟨-, name, -, hregisters⟩ := hmet
  exact h.not_registers name hregisters

/-- A dead child has no part in the registration of the next one. -/
theorem Leaves.mark (h : Leaves children children') (tree : Tree) :
    Leaves (mark children tree) (mark children' tree) := by
  have hcombines : combines children' tree = combines children tree := by
    unfold combines
    congr 1
    induction h with
    | nil => rfl
    | keep _ ih => rw [any_cons, any_cons, ih]
    | drop hdead _ ih =>
      rw [any_cons, ih, Bool.eq_false_iff.mpr (hdead.not_isMetBy tree), Bool.false_or]
  rw [Definitions.mark, Definitions.mark, hcombines]
  exact (h.map fun child hdead => update_of_not_isMetBy (hdead.not_isMetBy tree) _).append_right _

end Leaves

/-! ### Children without the definitions of a name -/

/-- Marked children without the definitions of a name, none of which hides anything. -/
structure IsWithout (name : String) (children children' : List Child) : Prop where
  /-- The definitions are not there. -/
  eq_filter : children' = children.filter fun child => !isDefineOf name child.tree
  /-- They hide nothing. -/
  hidesNothing : ∀ child ∈ children, isDefineOf name child.tree = true → HidesNothing child.tree

section Without

variable {name : String} {children children' : List Child} {tree : Tree}

theorem tree_unregister (name : String) (child : Child) :
    (child.unregister name).tree = child.tree := by
  unfold Child.unregister
  split <;> rfl

theorem hidesNothing_append {extra : List Tree} (h : HidesNothing tree)
    (h' : ∀ node ∈ preorderAll extra,
      node.name ∉ ["define", "start", "removed", "not-implemented", "elementType"]) :
    HidesNothing { tree with children := tree.children ++ extra } := by
  intro node hnode
  rw [descendants, preorderAll_append, mem_append] at hnode
  exact hnode.elim (h node) (h' node)

theorem hidesNothing_update {child : Child} (h : HidesNothing child.tree)
    (htree : HidesNothing tree) (combined : Bool) :
    HidesNothing (child.update combined tree).tree := by
  unfold Child.update Child.extend Child.unregister
  split
  · split <;> split
    · exact hidesNothing_append h htree
    · exact h
    · exact h
    · exact h
  · exact h

theorem hidesNothing_next (h : HidesNothing tree) (combined : Bool) :
    HidesNothing (Child.next combined tree).tree := by
  unfold Child.next
  split
  · exact fun node hnode => absurd hnode not_mem_nil
  · exact h

/-- Being updated does not change whether a child has the name. -/
theorem not_isDefineOf_update (combined : Bool) (tree : Tree) (child : Child) :
    (!isDefineOf name (child.update combined tree).tree) = !isDefineOf name child.tree :=
  congrArg not (isDefineOf_update name combined tree child)

/-- A child that is no definition of the name is marked in both. -/
theorem IsWithout.mark (h : IsWithout name children children')
    (htree : isDefineOf name tree = false) :
    IsWithout name (mark children tree) (mark children' tree) := by
  obtain ⟨rfl, hhides⟩ := h
  constructor
  · refine (filter_mark_of_pos (not_isDefineOf_update · tree) (fun child hmet => ?_)
      fun combined => ?_).symm
    · rw [isDefineOf_of_isMetBy hmet, htree]
      rfl
    · rw [isDefineOf_next, htree]
      rfl
  · intro child hchild hname
    rcases mem_append.mp hchild with hchild | hchild
    · obtain ⟨before, hbefore, rfl⟩ := mem_map.mp hchild
      rw [isDefineOf_update] at hname
      have hkept : ¬ before.isMetBy tree = true := by
        intro hmet
        exact Bool.false_ne_true (htree.symm.trans ((isDefineOf_of_isMetBy hmet).symm.trans hname))
      rw [update_of_not_isMetBy hkept]
      exact hhides before hbefore hname
    · obtain rfl := mem_singleton.mp hchild
      rw [isDefineOf_next, htree] at hname
      exact absurd hname Bool.false_ne_true

/-- The children that are no definitions of a name are not changed by one. -/
theorem map_update_filter (htree : isDefineOf name tree = true) (combined : Bool)
    (children : List Child) :
    (children.filter fun child => !isDefineOf name child.tree).map (Child.update combined tree) =
      children.filter fun child => !isDefineOf name child.tree := by
  refine map_eq_self fun child hchild => update_of_not_isMetBy ?_ combined
  intro hmet
  have hname := (isDefineOf_of_isMetBy hmet).trans htree
  simpa [hname] using (mem_filter.mp hchild).2

/-- A definition of the name is marked on the one side only. -/
theorem IsWithout.mark_left (h : IsWithout name children children')
    (htree : isDefineOf name tree = true) (hhides : HidesNothing tree) :
    IsWithout name (Definitions.mark children tree) children' := by
  constructor
  · refine h.eq_filter.trans (Eq.symm ?_)
    refine filter_mark_of_neg (not_isDefineOf_update · tree) (fun child hmet => ?_)
      fun combined => ?_
    · rw [isDefineOf_of_isMetBy hmet, htree]
      rfl
    · rw [isDefineOf_next, htree]
      rfl
  · intro child hchild hname
    rcases mem_append.mp hchild with hchild | hchild
    · obtain ⟨before, hbefore, rfl⟩ := mem_map.mp hchild
      rw [isDefineOf_update] at hname
      exact hidesNothing_update (h.hidesNothing before hbefore hname) hhides _
    · obtain rfl := mem_singleton.mp hchild
      exact hidesNothing_next hhides _

/-- A definition that is not registered any more is dead. -/
theorem isDead_unregister {child : Child} (hname : isDefineOf name child.tree = true)
    (hhides : HidesNothing child.tree) : (child.unregister name).IsDead := by
  refine ⟨?_, ?_, (tree_unregister name child).symm ▸ hhides⟩
  · unfold Child.unregister
    split
    · rfl
    · rename_i hkept
      rw [Child.registers, hname, Bool.and_true] at hkept
      exact Bool.eq_false_iff.mpr hkept
  · rw [isDefineOf, Bool.and_eq_true] at hname
    rw [tree_unregister]
    exact hname.1

/-- A definition that overrides leaves the definitions of its name dead. -/
theorem IsWithout.leaves (h : IsWithout name children children')
    (htree : overrides name tree = true) :
    Leaves (Definitions.mark children tree) (Definitions.mark children' tree) := by
  obtain ⟨rfl, hhides⟩ := h
  rw [overrides, Bool.and_eq_true, decide_eq_true_eq] at htree
  obtain ⟨hname, hcombine⟩ := htree
  have hcombines : ∀ children, combines children tree = false := by
    intro children
    rw [combines, decide_eq_false hcombine, Bool.false_and]
  rw [Definitions.mark, Definitions.mark, hcombines, hcombines, map_update_filter hname]
  refine Leaves.append_right ?_ _
  rw [isDefineOf, Bool.and_eq_true, decide_eq_true_eq] at hname
  obtain ⟨hdefine, hname⟩ := hname
  rw [update_of_name hdefine hname, if_neg Bool.false_ne_true]
  induction children with
  | nil => exact .nil
  | cons child rest ih =>
    obtain ⟨hchild, hrest⟩ := forall_mem_cons.mp hhides
    rw [map_cons]
    cases hchildName : isDefineOf name child.tree with
    | false =>
      have hkept : ¬ child.registers name = true := fun hregisters =>
        Bool.false_ne_true (hchildName.symm.trans (isDefineOf_of_registers hregisters))
      rw [unregister_of_not_registers hkept, filter_cons_of_pos (by rw [hchildName]; rfl)]
      exact .keep (ih hrest)
    | true =>
      rw [filter_cons_of_neg (by rw [hchildName]; simp)]
      exact .drop (isDead_unregister hchildName (hchild hchildName)) (ih hrest)

end Without

/-! ### Registration side by side -/

section Registration

variable {name : String} {definitions definitions' : Definitions} {tree : Tree}

theorem alike_register {R S : List Child → List Child → Prop}
    (h : AreMarked R definitions definitions') (tree : Tree)
    (hmark : ∀ children children', R children children' →
      S (mark children tree) (mark children' tree)) :
    Alike (AreMarked S) (register definitions tree) (register definitions' tree) := by
  by_cases hnamed : isDefine tree = true → ∃ name, tree.attribute? "name" = some name
  · obtain ⟨next, hnext⟩ := exists_register_of_name hnamed definitions
    obtain ⟨next', hnext'⟩ := exists_register_of_name hnamed definitions'
    rw [hnext, hnext']
    refine .ok ⟨h.left.register hnext, h.right.register hnext', ?_⟩
    rw [marked_register h.left hnext, marked_register h.right hnext']
    exact hmark _ _ h.marked
  · obtain ⟨hdefine, hname⟩ := Classical.not_imp.mp hnamed
    have hnone := Option.eq_none_iff_forall_ne_some.mpr (not_exists.mp hname)
    rw [register_of_no_name hdefine hnone, register_of_no_name hdefine hnone]
    exact .error

/-- Up to the definition that overrides, the definitions of its name are registered on one side
only. -/
theorem alike_foldlM_filter {trees : List Tree}
    (hhides : ∀ tree ∈ trees, isDefineOf name tree = true → HidesNothing tree)
    (h : AreMarked (IsWithout name) definitions definitions') :
    Alike (AreMarked (IsWithout name)) (trees.foldlM register definitions)
      ((trees.filter fun tree => !isDefineOf name tree).foldlM register definitions') := by
  induction trees generalizing definitions definitions' with
  | nil => exact .ok h
  | cons tree rest ih =>
    obtain ⟨htree, hrest⟩ := forall_mem_cons.mp hhides
    rw [foldlM_cons]
    cases hname : isDefineOf name tree with
    | false =>
      rw [filter_cons_of_pos (by rw [hname]; rfl), foldlM_cons]
      exact (alike_register h tree fun _ _ hwithout => hwithout.mark hname).bind fun _ _ hnext =>
        ih hrest hnext
    | true =>
      rw [filter_cons_of_neg (by rw [hname]; simp)]
      have hnamed := hname
      rw [isDefineOf, Bool.and_eq_true, decide_eq_true_eq] at hnamed
      obtain ⟨next, hnext⟩ := exists_register_of_name (fun _ => ⟨name, hnamed.2⟩) definitions
      rw [hnext]
      refine ih hrest ⟨h.left.register hnext, h.right, ?_⟩
      rw [marked_register h.left hnext]
      exact h.marked.mark_left hname (htree hname)

/-- **The registered definitions are the same, and those that are overridden are dead.** -/
theorem alike_collect {grammar grammar' : Tree}
    (hchildren : grammar'.children = withoutOverridden name grammar.children)
    (hhides : ∀ tree ∈ overridden name grammar.children, HidesNothing tree) :
    Alike (AreMarked Leaves) (collect grammar) (collect grammar') := by
  rw [collect, collect, hchildren]
  have hstart : AreMarked Leaves ⟨[], .empty⟩ ⟨[], .empty⟩ := ⟨areNamed_empty, areNamed_empty, .nil⟩
  have hafter : ∀ (trees : List Tree) (definitions definitions' : Definitions),
      AreMarked Leaves definitions definitions' →
        Alike (AreMarked Leaves) (trees.foldlM register definitions)
          (trees.foldlM register definitions') := fun trees _ _ h =>
    Alike.foldlM (fun tree _ _ _ hmarked => alike_register hmarked tree fun _ _ hleaves =>
      hleaves.mark tree) h
  cases hany : grammar.children.any (overrides name) with
  | false =>
    rw [withoutOverridden_eq_self hany]
    exact hafter _ _ _ hstart
  | true =>
    obtain ⟨before, last, after, hsplit, hlast, hoverridden, hwithout⟩ := exists_last_overrides hany
    have hbefore : ∀ tree ∈ before, isDefineOf name tree = true → HidesNothing tree :=
      fun tree htree hname => hhides tree (hoverridden ▸ mem_filter.mpr ⟨htree, hname⟩)
    rw [hwithout, hsplit, foldlM_append, foldlM_append]
    refine (alike_foldlM_filter hbefore ⟨areNamed_empty, areNamed_empty, rfl, ?_⟩).bind ?_
    · exact fun child hchild => absurd hchild not_mem_nil
    · intro state state' hstate
      rw [foldlM_cons, foldlM_cons]
      exact (alike_register hstate last fun _ _ hmarked => hmarked.leaves hlast).bind fun _ _ =>
        hafter _ _ _

end Registration

/-! ### What is read from the definitions -/

section Reading

variable {children children' : List Child} {definitions definitions' : Definitions}

/-- What counts wherever it stands is found in both. -/
theorem Leaves.filter_preorderAll (h : Leaves children children') {marker : String}
    (hdefine : marker ≠ "define")
    (hmarker : marker ∈ ["define", "start", "removed", "not-implemented", "elementType"]) :
    ((preorderAll (children'.map Child.tree)).filter fun node => node.name = marker) =
      (preorderAll (children.map Child.tree)).filter fun node => node.name = marker := by
  induction h with
  | nil => rfl
  | keep _ ih =>
    rw [map_cons, map_cons, preorderAll, preorderAll, filter_append, filter_append, ih]
  | @drop child _ _ hdead _ ih =>
    have hname := isDefine_iff.mp hdead.isDefine
    have hother : child.tree.name ≠ marker := fun hsame => hdefine (hsame.symm.trans hname)
    have hnone : ((preorderAll child.tree.children).filter fun node =>
        node.name = marker) = [] := by
      refine filter_eq_nil_iff.mpr fun node hnode hsame => ?_
      exact hdead.hidesNothing node hnode ((of_decide_eq_true hsame) ▸ hmarker)
    rw [map_cons, preorderAll, filter_append, filter_preorder hother, hnone, nil_append, ih]

theorem exists_of_mem_preorder_stripTree {names : List String} {node tree : Tree}
    (h : node ∈ (stripTree names tree).descendants) :
    ∃ other ∈ tree.descendants, node.name = other.name := by
  have hlabel : label node ∈ tree.descendants.map label := by
    obtain ⟨name, attributes, children⟩ := tree
    exact (sublist_preorderAll_strip names children).subset (mem_map_of_mem h)
  obtain ⟨other, hother, hsame⟩ := mem_map.mp hlabel
  exact ⟨other, hother, (congrArg Prod.fst hsame).symm⟩

theorem Leaves.stripMarked (h : Leaves children children') (names : List String) :
    Leaves (stripMarked names children) (stripMarked names children') := by
  induction h with
  | nil => exact .nil
  | @keep child _ _ _ ih =>
    by_cases hremoved : isRemoved names child.tree = true
    · rw [stripMarked_of_isRemoved hremoved, stripMarked_of_isRemoved hremoved]
      exact ih
    · rw [stripMarked_of_not_isRemoved hremoved, stripMarked_of_not_isRemoved hremoved]
      exact .keep ih
  | @drop child _ _ hdead _ ih =>
    rw [stripMarked_of_not_isRemoved (not_isRemoved_of_isDefine hdead.isDefine)]
    refine .drop ⟨hdead.registered_eq, (isDefine_stripTree names _).trans hdead.isDefine, ?_⟩ ih
    intro node hnode
    obtain ⟨other, hother, hname⟩ := exists_of_mem_preorder_stripTree hnode
    exact hname ▸ hdead.hidesNothing other hother

/-- The elements are the same. -/
theorem Leaves.elements_eq (h : Leaves children children') :
    (children'.flatMap fun child => elementsBelow child.registered child.tree.children) =
      children.flatMap fun child => elementsBelow child.registered child.tree.children := by
  induction h with
  | nil => rfl
  | keep _ ih => rw [flatMap_cons, flatMap_cons, ih]
  | @drop child _ _ hdead _ ih =>
    have hnone : elementsBelow false child.tree.children = [] := by
      refine elementsBelow_eq_nil fun node hnode hname => ?_
      exact hdead.hidesNothing node hnode (hname ▸ mem_cons_self)
    rw [flatMap_cons, hdead.registered_eq, hnone, nil_append, ih]

/-- The same nodes count in both grammars. -/
theorem AreMarked.findAll_eq (h : AreMarked Leaves definitions definitions') {marker : String}
    (hdefine : marker ≠ "define")
    (hmarker : marker ∈ ["define", "start", "removed", "not-implemented", "elementType"]) :
    definitions'.toTree.findAll marker = definitions.toTree.findAll marker := by
  have hfilter := h.marked.filter_preorderAll hdefine hmarker
  rw [map_tree_marked, map_tree_marked] at hfilter
  exact hfilter

theorem AreMarked.stripRemoved (h : AreMarked Leaves definitions definitions') :
    AreMarked Leaves definitions.stripRemoved definitions'.stripRemoved := by
  refine ⟨h.left.stripRemoved, h.right.stripRemoved, ?_⟩
  rw [marked_stripRemoved, marked_stripRemoved, markedNames, markedNames,
    h.findAll_eq (by decide) (by decide)]
  exact h.marked.stripMarked _

theorem AreMarked.find?_bodies_eq (h : AreMarked Leaves definitions definitions') (name : String) :
    definitions'.bodies.find? name = definitions.bodies.find? name :=
  find?_bodies_congr h.left h.right (h.marked.find?_registers name)

/-- **Definitions that differ by dead ones have the same flat form.** -/
theorem AreMarked.flatten_eq (h : AreMarked Leaves definitions definitions') :
    definitions'.flatten = definitions.flatten := by
  have hstripped := h.stripRemoved
  have hmarked : ∀ marker, marker ≠ "define" →
      marker ∈ ["define", "start", "removed", "not-implemented", "elementType"] →
      definitions'.stripRemoved.toTree.findAll marker =
        definitions.stripRemoved.toTree.findAll marker :=
    fun marker hdefine hmarker => hstripped.findAll_eq hdefine hmarker
  have helements : definitions'.stripRemoved.elements = definitions.stripRemoved.elements := by
    rw [elements_eq_flatMap, elements_eq_flatMap, hstripped.marked.elements_eq]
  have hflatten : ∀ names, flattenElement definitions'.stripRemoved.bodies names =
      flattenElement definitions.stripRemoved.bodies names := fun _ =>
    flattenElement_congr hstripped.find?_bodies_eq fun _ => Iff.rfl
  have hstart := startName_congr (hmarked "start" (by decide) (by decide))
  rw [flatten, flatten]
  simp only [markedNames, hmarked "not-implemented" (by decide) (by decide), helements, hflatten,
    hstart, hmarked "elementType" (by decide) (by decide)]

end Reading

end Definitions

/-! ### Schemas -/

namespace Schema

/-- **It makes no difference that overridden definitions are there**, unless something that counts
wherever it stands is below them. The schema is the same without them, and so is the error if there
is none. -/
theorem compileTree_withoutOverridden {limits : Limits} {tree grammar : Tree} {name : String}
    (hgrammar : tree.grammar? = some grammar)
    (hhides : ∀ definition ∈ Definitions.overridden name grammar.children,
      Definitions.HidesNothing definition) :
    compileTree limits (tree.setGrammar (Definitions.withoutOverridden name grammar.children)) =
      compileTree limits tree := by
  have hcollect := Definitions.alike_collect
    (show ({ grammar with
      children := Definitions.withoutOverridden name grammar.children } : Tree).children =
        Definitions.withoutOverridden name grammar.children from rfl) hhides
  rw [compileTree, compileTree, grammar?_setGrammar, hgrammar, Option.map_some]
  refine Eq.symm (hcollect.bind_eq fun definitions definitions' hmarked => ?_)
  rw [hmarked.flatten_eq]

/-- A definition and one that is combined with it are overridden by a third one, with which a fourth
one is combined. What the second one refers to is not defined. -/
theorem compileTree_withoutOverridden_combined :
    let reference (name : String) : Tree := ⟨"ref", .ofList [("name", name)], []⟩
    let define (name : String) (children : List Tree) : Tree :=
      ⟨"define", .ofList [("name", name)], children⟩
    let combined (name : String) (children : List Tree) : Tree :=
      ⟨"define", .ofList [("name", name), ("combine", "interleave")], children⟩
    let list := define "list" [⟨"element", .ofList [("name", "list")], [reference "item"]⟩]
    let kept := [define "item" [.plain "text" []], combined "item" [.plain "empty" []], list]
    let grammar := Tree.plain "grammar" (.plain "start" [reference "list"] ::
      define "item" [⟨"element", .ofList [("name", "old")], []⟩] ::
        combined "item" [reference "lost"] :: kept)
    Schema.start <$> compileTree {} grammar = .ok "list" ∧
      compileTree {} (.plain "grammar" (.plain "start" [reference "list"] :: kept)) =
        compileTree {} grammar := by
  intro reference define combined list kept grammar
  have hhides : ∀ definition ∈ Definitions.overridden "item" grammar.children,
      Definitions.HidesNothing definition := by
    decide +kernel
  have hwithout : grammar.setGrammar (Definitions.withoutOverridden "item" grammar.children) =
      .plain "grammar" (.plain "start" [reference "list"] :: kept) := by
    cbv
  have hstart : Schema.start <$> compileTree {} grammar = .ok "list" := by cbv
  have hsame := @compileTree_withoutOverridden {} grammar grammar "item" rfl hhides
  rw [hwithout] at hsame
  exact ⟨hstart, hsame⟩

end Schema

end RelaxSchema
