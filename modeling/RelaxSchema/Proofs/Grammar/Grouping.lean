import RelaxSchema.Proofs.Grammar.Definitions
import RelaxSchema.Proofs.Grammar.Regrouping

/-!
# Grammars with a definition put in a group

What becomes of a grammar when the children of one of its definitions are put in a group
(`GroupedAt`).

* `Definitions.differAt_collect`: the definitions that are registered differ by the group as well;
* `Definitions.GroupedAt.strip`, `GroupedAt.elementsFrom_eq`, `GroupedAt.filter_preorderAll`: so do
  they after names are removed, while the elements, the markers and the start are the same;
* `Definitions.areGrouped_bodies`: one body has the group, the others are the same.

A definition may later be combined with others of its name, so the group is around its first
children.
-/

namespace RelaxSchema.Definitions

open List RelaxSchema.Tree

/-- The second trees are the first ones with a group around the first children of the definition at
a position, none of which is an element. -/
inductive GroupedAt : Nat → List Tree → List Tree → Prop
  /-- The definition is the first tree. -/
  | here {tree : Tree} {front back rest : List Tree} : isDefine tree = true →
      tree.children = front ++ back → (∀ child ∈ front, child.name ≠ "element") →
      GroupedAt 0 (tree :: rest) ({ tree with children := .plain "group" front :: back } :: rest)
  /-- The first tree is no definition. -/
  | skip {position : Nat} {tree : Tree} {rest rest' : List Tree} : isDefine tree = false →
      GroupedAt position rest rest' → GroupedAt position (tree :: rest) (tree :: rest')
  /-- The first tree is an earlier definition. -/
  | next {position : Nat} {tree : Tree} {rest rest' : List Tree} : isDefine tree = true →
      GroupedAt position rest rest' → GroupedAt (position + 1) (tree :: rest) (tree :: rest')

section Lists

variable {position : Nat} {trees trees' : List Tree}

/-- The definitions are the same but for the one at the position. -/
theorem GroupedAt.exists_filter_isDefine (h : GroupedAt position trees trees') : ∃ tree front back,
    (trees.filter isDefine)[position]? = some tree ∧ tree.children = front ++ back ∧
      trees'.filter isDefine = (trees.filter isDefine).set position
        { tree with children := .plain "group" front :: back } := by
  induction h with
  | @here tree front back rest hdefine hchildren _ =>
    have hgroup : isDefine { tree with children := .plain "group" front :: back } = true := hdefine
    refine ⟨tree, front, back, ?_, hchildren, ?_⟩
    · rw [filter_cons_of_pos hdefine]
      rfl
    · rw [filter_cons_of_pos hdefine, filter_cons_of_pos hgroup]
      rfl
  | @skip _ other _ _ hother _ ih =>
    have hneg : ¬ isDefine other = true := by simp [hother]
    rwa [filter_cons_of_neg hneg, filter_cons_of_neg hneg]
  | @next _ other _ _ hdefine _ ih =>
    obtain ⟨tree, front, back, hfound, hchildren, hset⟩ := ih
    refine ⟨tree, front, back, ?_, hchildren, ?_⟩
    · rw [filter_cons_of_pos hdefine]
      exact hfound
    · rw [filter_cons_of_pos hdefine, filter_cons_of_pos hdefine, hset]
      rfl

theorem GroupedAt.length_filter_isDefine (h : GroupedAt position trees trees') :
    (trees'.filter isDefine).length = (trees.filter isDefine).length := by
  obtain ⟨tree, front, back, -, -, hset⟩ := h.exists_filter_isDefine
  rw [hset, length_set]

theorem GroupedAt.append_right (h : GroupedAt position trees trees') (after : List Tree) :
    GroupedAt position (trees ++ after) (trees' ++ after) := by
  induction h with
  | here hdefine hchildren hfront => exact .here hdefine hchildren hfront
  | skip hother _ ih => exact .skip hother ih
  | next hdefine _ ih => exact .next hdefine ih

theorem GroupedAt.append_left (before : List Tree) (h : GroupedAt position trees trees') :
    GroupedAt ((before.filter isDefine).length + position) (before ++ trees)
      (before ++ trees') := by
  induction before with
  | nil => simpa using h
  | cons tree rest ih =>
    cases hdefine : isDefine tree with
    | false =>
      rw [filter_cons_of_neg (by simp [hdefine])]
      exact .skip hdefine ih
    | true =>
      rw [filter_cons_of_pos hdefine, length_cons, Nat.add_right_comm]
      exact .next hdefine ih

/-- What is added to a definition is added behind the group. -/
theorem GroupedAt.extendDefine (h : GroupedAt position trees trees') (extra : List Tree)
    (target : Nat) :
    GroupedAt position (extendDefine extra target trees) (extendDefine extra target trees') := by
  induction h generalizing target with
  | @here tree front back rest hdefine hchildren hfront =>
    have hgroup : isDefine { tree with children := .plain "group" front :: back } = true := hdefine
    cases target with
    | zero =>
      rw [extendDefine_zero hdefine, extendDefine_zero hgroup]
      have hextended : isDefine { tree with children := tree.children ++ extra } = true := hdefine
      have hsplit : tree.children ++ extra = front ++ (back ++ extra) := by
        rw [hchildren, append_assoc]
      exact @GroupedAt.here { tree with children := tree.children ++ extra }
        _ _ _ hextended hsplit hfront
    | succ target =>
      rw [extendDefine_succ hdefine, extendDefine_succ hgroup]
      exact .here hdefine hchildren hfront
  | skip hother _ ih =>
    rw [extendDefine_skip hother, extendDefine_skip hother]
    exact .skip hother (ih target)
  | @next _ tree _ _ hdefine hrest ih =>
    cases target with
    | zero =>
      rw [extendDefine_zero hdefine, extendDefine_zero hdefine]
      have hextended : isDefine { tree with children := tree.children ++ extra } = true := hdefine
      exact .next hextended hrest
    | succ target =>
      rw [extendDefine_succ hdefine, extendDefine_succ hdefine]
      exact .next hdefine (ih target)

end Lists

/-! ### Registration -/

/-- Definitions that differ by a group, registered alike. -/
structure DifferAt (position : Nat) (definitions definitions' : Definitions) : Prop where
  /-- The names are registered at the same positions. -/
  positions_eq : definitions'.positions = definitions.positions
  /-- One definition has the group. -/
  groupedAt : GroupedAt position definitions.children definitions'.children

section Registration

variable {position : Nat} {definitions definitions' next next' : Definitions} {tree : Tree}

theorem DifferAt.length_defines (h : DifferAt position definitions definitions') :
    definitions'.defines.length = definitions.defines.length :=
  h.groupedAt.length_filter_isDefine

/-- Registration keeps the difference. -/
theorem DifferAt.register (h : DifferAt position definitions definitions')
    (hregister : register definitions tree = .ok next)
    (hregister' : Definitions.register definitions' tree = .ok next') :
    DifferAt position next next' := by
  have hlength := h.length_defines
  obtain ⟨hpositions, hgrouped⟩ := h
  obtain ⟨hother, rfl⟩ | ⟨name, target, hdefine, hname, hfound, hcombine, rfl⟩ |
    ⟨name, hdefine, hname, hnew, rfl⟩ := register_cases hregister
  · obtain rfl := Except.ok.inj ((register_other hother).symm.trans hregister')
    exact ⟨hpositions, hgrouped.append_right _⟩
  · simp only [Definitions.register, hdefine, if_true, hname, hpositions, hfound,
      hcombine] at hregister'
    obtain rfl := Except.ok.inj hregister'
    exact ⟨rfl, (hgrouped.extendDefine _ _).append_right _⟩
  · obtain rfl := Except.ok.inj
      ((register_of_new hdefine hname (hpositions.symm ▸ hnew)).symm.trans hregister')
    refine ⟨?_, hgrouped.append_right _⟩
    rw [hpositions, hlength]

/-- The definition that is put in a group is registered with it, and the difference stays. -/
theorem GroupedAt.differAt {trees trees' : List Tree} (h : GroupedAt position trees trees')
    (hplaced : definitions.ArePlaced) {last last' : Definitions} {name : String}
    (hlast : trees.foldlM Definitions.register definitions = .ok last)
    (hlast' : trees'.foldlM Definitions.register definitions = .ok last')
    (hposition : last.positions.find? name = some (definitions.defines.length + position)) :
    DifferAt (definitions.defines.length + position) last last' := by
  induction h generalizing definitions with
  | @here tree front back rest hdefine hchildren hfront =>
    rw [foldlM_cons] at hlast hlast'
    obtain ⟨next, hnext, hrest⟩ := bind_eq_ok_iff.mp hlast
    obtain ⟨next', hnext', hrest'⟩ := bind_eq_ok_iff.mp hlast'
    have hlength := length_defines_register hnext
    rw [if_pos hdefine] at hlength
    -- Later definitions take later positions, so it is this one that is registered here.
    have hfound : next.positions.find? name = some definitions.defines.length := by
      rcases find?_positions_foldlM hrest hposition with hfound | hle
      · exact hfound
      · omega
    obtain ⟨hother, -⟩ | ⟨_, target, -, -, -, -, rfl⟩ | ⟨other, -, hname, hnew, rfl⟩ :=
      register_cases hnext
    · simp [hdefine] at hother
    · -- A combined definition is not registered at its own position.
      exact absurd (hplaced name _ hfound) (lt_irrefl _)
    · have hgroup : isDefine { tree with children := .plain "group" front :: back } = true :=
        hdefine
      obtain rfl := Except.ok.inj ((register_of_new hgroup hname hnew).symm.trans hnext')
      have hstart : DifferAt (definitions.defines.length + 0)
          ⟨definitions.children ++ [tree],
            definitions.positions.insert other definitions.defines.length⟩
          ⟨definitions.children ++ [{ tree with children := .plain "group" front :: back }],
            definitions.positions.insert other definitions.defines.length⟩ :=
        ⟨rfl, (GroupedAt.here hdefine hchildren hfront).append_left definitions.children⟩
      exact foldlM_relation (fun _ _ _ _ _ _ hdiffer hstep hstep' => hdiffer.register hstep hstep')
        hstart hrest hrest'
  | @skip _ tree rest rest' hother _ ih =>
    rw [foldlM_cons] at hlast hlast'
    obtain ⟨next, hnext, hrest⟩ := bind_eq_ok_iff.mp hlast
    obtain ⟨next', hnext', hrest'⟩ := bind_eq_ok_iff.mp hlast'
    obtain rfl := Except.ok.inj (hnext.symm.trans hnext')
    have hlength := length_defines_register hnext
    rw [hother, if_neg (by simp), Nat.add_zero] at hlength
    rw [← hlength] at hposition ⊢
    exact ih (hplaced.register hnext) hrest hrest' hposition
  | @next _ tree rest rest' hdefine _ ih =>
    rw [foldlM_cons] at hlast hlast'
    obtain ⟨next, hnext, hrest⟩ := bind_eq_ok_iff.mp hlast
    obtain ⟨next', hnext', hrest'⟩ := bind_eq_ok_iff.mp hlast'
    obtain rfl := Except.ok.inj (hnext.symm.trans hnext')
    have hlength := length_defines_register hnext
    rw [if_pos hdefine] at hlength
    rw [← Nat.add_assoc, Nat.add_right_comm, ← hlength] at hposition ⊢
    exact ih (hplaced.register hnext) hrest hrest' hposition

/-- **Registration keeps a group in a definition that is registered.** -/
theorem differAt_collect {grammar grammar' : Tree} {name : String}
    (h : GroupedAt position grammar.children grammar'.children)
    (hcollect : collect grammar = .ok definitions) (hcollect' : collect grammar' = .ok definitions')
    (hposition : definitions.positions.find? name = some position) :
    DifferAt position definitions definitions' := by
  have hplaced : (⟨[], .empty⟩ : Definitions).ArePlaced := by
    intro name position hposition
    simp [Catalogue.find?, Catalogue.empty] at hposition
  have hzero : (⟨[], .empty⟩ : Definitions).defines.length + position = position :=
    Nat.zero_add position
  have hdiffer := h.differAt hplaced hcollect hcollect' (hzero.symm ▸ hposition)
  rwa [hzero] at hdiffer

end Registration

/-! ### Removed names -/

section Removed

variable {names : List String} {position : Nat} {trees trees' : List Tree}

theorem strip_append (names : List String) (before after : List Tree) :
    strip names (before ++ after) = strip names before ++ strip names after := by
  induction before with
  | nil => rfl
  | cons tree rest ih =>
    rw [cons_append, strip, strip, ih]
    split <;> rfl

theorem exists_of_mem_strip {tree : Tree} (h : tree ∈ strip names trees) :
    ∃ before ∈ trees, tree.name = before.name := by
  induction trees with
  | nil => simp [strip] at h
  | cons first rest ih =>
    rw [strip] at h
    split at h
    · obtain ⟨before, hmem, hname⟩ := ih h
      exact ⟨before, mem_cons_of_mem _ hmem, hname⟩
    · rcases mem_cons.mp h with rfl | hmem
      · exact ⟨first, mem_cons_self, name_stripTree names first⟩
      · obtain ⟨before, hmem, hname⟩ := ih hmem
        exact ⟨before, mem_cons_of_mem _ hmem, hname⟩

theorem GroupedAt.strip (h : GroupedAt position trees trees') :
    GroupedAt position (strip names trees) (strip names trees') := by
  induction h with
  | @here tree front back rest hdefine hchildren hfront =>
    have hgroup : isDefine { tree with children := .plain "group" front :: back } = true := hdefine
    rw [strip_define hdefine, strip_define hgroup]
    obtain ⟨name, attributes, children⟩ := tree
    obtain rfl : children = front ++ back := hchildren
    have hkept : Definitions.strip names (plain "group" front :: back) =
        plain "group" (Definitions.strip names front) :: Definitions.strip names back := by
      rw [Definitions.strip, isRemoved_eq_false (by simp [plain]) (by simp [plain]),
        if_neg Bool.false_ne_true, plain, stripTree]
      rfl
    rw [stripTree, stripTree, hkept]
    refine @GroupedAt.here ⟨name, attributes, _⟩ _ _ _ hdefine (strip_append names front back) ?_
    intro child hchild
    obtain ⟨before, hmem, hname⟩ := exists_of_mem_strip hchild
    rw [hname]
    exact hfront before hmem
  | @skip _ tree rest rest' hother _ ih =>
    rw [Definitions.strip, Definitions.strip]
    split
    · exact ih
    · exact .skip ((isDefine_stripTree names tree).trans hother) ih
  | @next _ tree rest rest' hdefine _ ih =>
    rw [strip_define hdefine, strip_define hdefine]
    exact .next ((isDefine_stripTree names tree).trans hdefine) ih

theorem filter_preorder {tree : Tree} {name : String} (h : tree.name ≠ name) :
    (tree.preorder.filter fun node => node.name = name) =
      (preorderAll tree.children).filter fun node => node.name = name := by
  rw [preorder_eq, filter_cons_of_neg (by simpa using h), descendants]

/-- A group hides no node, and only the definition is another one. -/
theorem GroupedAt.filter_preorderAll (h : GroupedAt position trees trees') {name : String}
    (hdefine : name ≠ "define") (hgroup : name ≠ "group") :
    ((preorderAll trees').filter fun node => node.name = name) =
      (preorderAll trees).filter fun node => node.name = name := by
  induction h with
  | @here tree front back rest htree hchildren _ =>
    have hname := isDefine_iff.mp htree
    have hother : tree.name ≠ name := fun hsame => hdefine (hsame.symm.trans hname)
    have hgrouped :=
      @filter_preorder { tree with children := plain "group" front :: back } name hother
    have hfront := @filter_preorder (plain "group" front) name (Ne.symm hgroup)
    rw [preorderAll, preorderAll, filter_append, filter_append, hgrouped, filter_preorder hother,
      hchildren, preorderAll, filter_append, hfront, preorderAll_append, filter_append]
    rfl
  | skip _ _ ih => rw [preorderAll, preorderAll, filter_append, filter_append, ih]
  | next _ _ ih => rw [preorderAll, preorderAll, filter_append, filter_append, ih]

end Removed

/-! ### Elements and bodies -/

section Elements

variable {position : Nat} {definitions definitions' : Definitions}

theorem elementsBelow_append (direct : Bool) (before after : List Tree) :
    elementsBelow direct (before ++ after) = elementsBelow direct before ++
      elementsBelow direct after := by
  induction before with
  | nil => rfl
  | cons tree rest ih => rw [cons_append, elementsBelow, elementsBelow, ih, append_assoc]

/-- Where no element stands directly in a definition, it does not matter that there is one. -/
theorem elementsBelow_congr {trees : List Tree} (h : ∀ tree ∈ trees, tree.name ≠ "element")
    (direct : Bool) : elementsBelow direct trees = elementsBelow false trees := by
  induction trees with
  | nil => rfl
  | cons tree rest ih =>
    obtain ⟨hfirst, hrest⟩ := forall_mem_cons.mp h
    obtain ⟨name, attributes, children⟩ := tree
    rw [elementsBelow, elementsBelow, ih hrest, elementsAt, elementsAt, decide_eq_false hfirst,
      Bool.and_false, Bool.and_false]

/-- The elements are the same. -/
theorem GroupedAt.elementsFrom_eq {trees trees' : List Tree} (h : GroupedAt position trees trees')
    (hpositions : definitions'.positions = definitions.positions) (start : Nat) :
    definitions'.elementsFrom start trees' = definitions.elementsFrom start trees := by
  have hregistered : ∀ position tree,
      definitions'.isRegistered position tree = definitions.isRegistered position tree := by
    intro position tree
    rw [isRegistered, isRegistered, hpositions]
  have hsame : ∀ start trees,
      definitions'.elementsFrom start trees = definitions.elementsFrom start trees := by
    intro start trees
    induction trees generalizing start with
    | nil => rfl
    | cons tree rest ih => rw [elementsFrom, elementsFrom, ih, ih, hregistered]
  induction h generalizing start with
  | @here tree front back rest hdefine hchildren hfront =>
    have hgroup : isDefine { tree with children := plain "group" front :: back } = true := hdefine
    -- The definition keeps its name, and in the group no element is directly in a definition.
    have hkept : definitions.isRegistered start { tree with
        children := plain "group" front :: back } = definitions.isRegistered start tree := rfl
    rw [elementsFrom, elementsFrom, if_pos hdefine, if_pos hgroup, hsame, hregistered, hkept,
      hchildren, elementsBelow_append, elementsBelow_congr hfront, elementsBelow, plain, elementsAt]
    simp
  | skip hother _ ih =>
    rw [elementsFrom, elementsFrom, hother, if_neg Bool.false_ne_true,
      if_neg Bool.false_ne_true, ih]
  | next hdefine _ ih => rw [elementsFrom, elementsFrom, if_pos hdefine, if_pos hdefine,
      ih, hregistered]

/-- **One body has the group, and the others are the same.** -/
theorem DifferAt.areGrouped_bodies (h : DifferAt position definitions definitions')
    (hplaced : definitions.ArePlaced) (hapart : definitions.AreApart) {name : String}
    (hposition : definitions.positions.find? name = some position) : ∃ front back,
      Expansion.AreGrouped definitions.bodies definitions'.bodies name front back := by
  have hplaced' : definitions'.ArePlaced := by
    intro other target htarget
    rw [h.positions_eq] at htarget
    rw [h.length_defines]
    exact hplaced other target htarget
  obtain ⟨hpositions, hgrouped⟩ := h
  obtain ⟨tree, front, back, hfound, hchildren, hset⟩ := hgrouped.exists_filter_isDefine
  have hset' : definitions'.defines = definitions.defines.set position
      { tree with children := .plain "group" front :: back } := hset
  refine ⟨front, back, ?_, ?_, fun other hother => ?_⟩
  · have hfind : definitions.find? name = some tree := by
      rw [Definitions.find?, hposition]
      exact hfound
    rw [find?_bodies hplaced, hfind, Option.map_some, hchildren]
  · have hfind : definitions'.find? name =
        some { tree with children := .plain "group" front :: back } := by
      rw [Definitions.find?, hpositions, hposition, Option.bind_some, hset',
        getElem?_set_self (hplaced name position hposition)]
    rw [find?_bodies hplaced', hfind, Option.map_some]
  · rw [find?_bodies hplaced, find?_bodies hplaced', Definitions.find?,
      Definitions.find?, hpositions]
    cases htarget : definitions.positions.find? other with
    | none => rfl
    | some target =>
      have hne : position ≠ target := by
        rintro rfl
        exact hother (hapart other name position htarget hposition)
      rw [Option.bind_some, Option.bind_some, hset', getElem?_set_ne hne]

end Elements

end RelaxSchema.Definitions
