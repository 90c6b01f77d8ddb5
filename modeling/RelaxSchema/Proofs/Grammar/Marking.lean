import RelaxSchema.Proofs.Grammar.Grouping

/-!
# Children of a grammar element with marks

The positions at which definitions are registered say which of the children of the grammar element
are the registered ones of their names. Here that is written beside each child
(`Definitions.marked`), and all that is done with the definitions is done with the marked children:

* `Definitions.marked_register`: registration (`mark`);
* `Definitions.marked_stripRemoved`: the removal of names;
* `Definitions.elements_eq_flatMap`, `Definitions.find?_eq_map_find?`: what is read afterwards.

So two grammars are compared by their marked children (`Definitions.AreMarked`). They are flattened
alike where the same is found among these (`Definitions.find?_bodies_congr`,
`Definitions.flattenElement_congr`).

Other than positions, marks stay right when children in between go away.
-/

namespace RelaxSchema.Definitions

open List RelaxSchema.Tree

/-- Whether a node is a definition of a name. -/
def isDefineOf (name : String) (tree : Tree) : Bool :=
  isDefine tree && tree.attribute? "name" = some name

/-- A child of the grammar element. -/
structure Child where
  /-- The child. -/
  tree : Tree
  /-- Whether it is the registered definition of its name. -/
  registered : Bool

namespace Child

/-- Whether the child is the registered definition of a name. -/
def registers (name : String) (child : Child) : Bool :=
  child.registered && isDefineOf name child.tree

/-- The child with more children, if it is the registered definition of a name. -/
def extend (name : String) (extra : List Tree) (child : Child) : Child :=
  if child.registers name then
    { child with tree := { child.tree with children := child.tree.children ++ extra } }
  else child

/-- The child is not the registered definition of a name any more. -/
def unregister (name : String) (child : Child) : Child :=
  if child.registers name then { child with registered := false } else child

/-- Whether the child is the registered definition of the name of another one. -/
def isMetBy (tree : Tree) (child : Child) : Bool :=
  isDefine tree && (tree.attribute? "name").any fun name => child.registers name

/-- The child after the next one is marked, which may be combined with it or take its place. -/
def update (combined : Bool) (tree : Tree) (child : Child) : Child :=
  match isDefine tree, tree.attribute? "name" with
  | true, some name => if combined then child.extend name tree.children else child.unregister name
  | _, _ => child

/-- The next child. A definition is registered unless it is combined, when it is left without
children. -/
def next (combined : Bool) (tree : Tree) : Child :=
  if combined then ⟨{ tree with children := [] }, false⟩ else ⟨tree, isDefine tree⟩

end Child

/-- Whether the next child of the grammar element is combined with one that is registered. -/
def combines (children : List Child) (tree : Tree) : Bool :=
  tree.attribute? "combine" = some "interleave" && children.any (Child.isMetBy tree)

/-- Marks the next child of the grammar element. -/
def mark (children : List Child) (tree : Tree) : List Child :=
  children.map (Child.update (combines children tree) tree) ++
    [Child.next (combines children tree) tree]

/-- Some children with their marks. `position` is that of the first definition among them. -/
def markedFrom (definitions : Definitions) : Nat → List Tree → List Child
  | _, [] => []
  | position, tree :: rest =>
    if isDefine tree then
      ⟨tree, definitions.isRegistered position tree⟩ :: definitions.markedFrom (position + 1) rest
    else ⟨tree, false⟩ :: definitions.markedFrom position rest

/-- The children of the grammar element with their marks. -/
def marked (definitions : Definitions) : List Child := definitions.markedFrom 0 definitions.children

/-- Each position is that of a definition of the name. -/
def AreNamed (definitions : Definitions) : Prop :=
  ∀ name position, definitions.positions.find? name = some position →
    (definedNames definitions.children)[position]? = some (some name)

/-! ### Marks and positions -/

section Marks

variable {definitions : Definitions} {position : Nat} {tree : Tree}
    {trees rest : List Tree} {name : String}

theorem markedFrom_define (h : isDefine tree = true) :
    definitions.markedFrom position (tree :: rest) =
    ⟨tree, definitions.isRegistered position tree⟩ ::
      definitions.markedFrom (position + 1) rest := by
  rw [markedFrom, if_pos h]

theorem markedFrom_other (h : isDefine tree = false) :
    definitions.markedFrom position (tree :: rest) =
    ⟨tree, false⟩ :: definitions.markedFrom position rest := by
  rw [markedFrom, h, if_neg Bool.false_ne_true]

/-- Only the positions matter. -/
theorem markedFrom_congr {definitions' : Definitions}
    (h : definitions'.positions = definitions.positions) (position : Nat) (trees : List Tree) :
    definitions'.markedFrom position trees = definitions.markedFrom position trees := by
  induction trees generalizing position with
  | nil => rfl
  | cons tree rest ih => rw [markedFrom, markedFrom, ih, ih, isRegistered, isRegistered, h]

theorem markedFrom_append (before after : List Tree) :
    definitions.markedFrom position (before ++ after) = definitions.markedFrom position before ++
      definitions.markedFrom (position + (before.filter isDefine).length) after := by
  induction before generalizing position with
  | nil => rfl
  | cons tree rest ih =>
    rw [cons_append]
    cases hdefine : isDefine tree with
    | true =>
      rw [markedFrom_define hdefine, markedFrom_define hdefine, ih, filter_cons_of_pos hdefine,
        length_cons, cons_append, Nat.add_right_comm, Nat.add_assoc]
    | false =>
      rw [markedFrom_other hdefine, markedFrom_other hdefine, ih,
        filter_cons_of_neg (by simp [hdefine]), cons_append]

theorem marked_mk (definitions : Definitions) (children : List Tree) :
    marked ⟨children, definitions.positions⟩ = definitions.markedFrom 0 children :=
  @markedFrom_congr definitions ⟨children, definitions.positions⟩ rfl 0 children

theorem map_tree_markedFrom : (definitions.markedFrom position trees).map Child.tree = trees := by
  induction trees generalizing position with
  | nil => rfl
  | cons tree rest ih =>
    rw [markedFrom]
    split <;> rw [map_cons, ih]

theorem map_tree_marked (definitions : Definitions) :
    definitions.marked.map Child.tree = definitions.children :=
  map_tree_markedFrom

/-- A definition is marked if its position is registered under its name. -/
theorem registers_iff (h : isDefine tree = true) :
    Child.registers name ⟨tree, definitions.isRegistered position tree⟩ = true ↔
      tree.attribute? "name" = some name ∧ definitions.positions.find? name = some position := by
  simp only [Child.registers, isDefineOf, isRegistered, h, Bool.true_and, Bool.and_eq_true,
    decide_eq_true_eq]
  constructor
  · rintro ⟨hposition, hname⟩
    rw [hname, Option.bind_some] at hposition
    exact ⟨hname, hposition⟩
  · rintro ⟨hname, hposition⟩
    rw [hname, Option.bind_some]
    exact ⟨hposition, rfl⟩

/-- The position of a marked child. -/
theorem exists_of_registers {child : Child} (hmem : child ∈ definitions.markedFrom position trees)
    (h : child.registers name = true) : ∃ index, index < (trees.filter isDefine).length ∧
      definitions.positions.find? name = some (position + index) := by
  induction trees generalizing position with
  | nil => exact absurd hmem not_mem_nil
  | cons tree rest ih =>
    cases hdefine : isDefine tree with
    | true =>
      rw [markedFrom_define hdefine] at hmem
      rw [filter_cons_of_pos hdefine, length_cons]
      rcases mem_cons.mp hmem with rfl | hmem
      · exact ⟨0, Nat.succ_pos _, ((registers_iff hdefine).mp h).2⟩
      · obtain ⟨index, hlt, hposition⟩ := ih hmem
        exact ⟨index + 1, Nat.succ_lt_succ hlt,
          by rw [hposition, Nat.add_right_comm, Nat.add_assoc]⟩
    | false =>
      rw [markedFrom_other hdefine] at hmem
      rw [filter_cons_of_neg (by simp [hdefine])]
      rcases mem_cons.mp hmem with rfl | hmem
      · simp [Child.registers] at h
      · exact ih hmem

/-- The child at a registered position is marked, and is the first one that is. -/
theorem find?_markedFrom {index : Nat}
    (hposition : definitions.positions.find? name = some (position + index))
    (hfound : (trees.filter isDefine)[index]? = some tree)
    (hname : tree.attribute? "name" = some name) :
    (definitions.markedFrom position trees).find? (Child.registers name) = some ⟨tree, true⟩ := by
  induction trees generalizing position index with
  | nil => simp at hfound
  | cons first rest ih =>
    cases hdefine : isDefine first with
    | true =>
      rw [filter_cons_of_pos hdefine] at hfound
      rw [markedFrom_define hdefine]
      have hiff := @registers_iff definitions position first name hdefine
      cases index with
      | zero =>
        obtain rfl := Option.some.inj hfound
        have hregistered : definitions.isRegistered position first = true := by
          rw [isRegistered, hname, Option.bind_some, hposition]
          exact decide_eq_true rfl
        rw [find?_cons_of_pos (hiff.mpr ⟨hname, hposition⟩), hregistered]
      | succ index =>
        have hneg : ¬ Child.registers name ⟨first,
            definitions.isRegistered position first⟩ = true := by
          rw [hiff]
          rintro ⟨-, hsame⟩
          have heq := Option.some.inj (hposition.symm.trans hsame)
          omega
        rw [find?_cons_of_neg hneg]
        exact ih (by rw [hposition, Nat.add_right_comm, Nat.add_assoc]) hfound
    | false =>
      rw [filter_cons_of_neg (by simp [hdefine])] at hfound
      rw [markedFrom_other hdefine, find?_cons_of_neg (by simp [Child.registers])]
      exact ih hposition hfound

end Marks

/-! ### Names at positions -/

section Named

variable {definitions next : Definitions} {tree : Tree}

theorem getElem?_append_of_eq_some {α : Type} {entries more : List α} {index : Nat} {entry : α}
    (h : entries[index]? = some entry) : (entries ++ more)[index]? = some entry := by
  obtain ⟨hlt, -⟩ := List.getElem?_eq_some_iff.mp h
  rw [getElem?_append_left hlt, h]

theorem AreNamed.register (h : definitions.AreNamed)
    (hregister : register definitions tree = .ok next) : next.AreNamed := by
  intro name position hposition
  obtain ⟨hother, rfl⟩ | ⟨_, target, hdefine, -, -, -, rfl⟩ | ⟨added, hdefine, hname, -, rfl⟩ :=
    register_cases hregister
  · rw [definedNames_append]
    exact getElem?_append_of_eq_some (h name position hposition)
  · rw [definedNames_append, definedNames_extendDefine]
    exact getElem?_append_of_eq_some (h name position hposition)
  · rw [definedNames_append, definedNames_cons_of_isDefine hdefine, hname]
    rw [Catalogue.find?_insert, length_defines] at hposition
    split at hposition
    · rename_i hsame
      obtain rfl := Option.some.inj hposition
      rw [getElem?_append_right le_rfl, Nat.sub_self, hsame]
      rfl
    · exact getElem?_append_of_eq_some (h name position hposition)

theorem areNamed_empty : AreNamed ⟨[], .empty⟩ := by
  intro name position hposition
  simp [Catalogue.find?, Catalogue.empty] at hposition

theorem AreNamed.stripRemoved (h : definitions.AreNamed) : definitions.stripRemoved.AreNamed := by
  intro name position hposition
  rw [Definitions.stripRemoved, definedNames_strip]
  exact h name position hposition

theorem AreNamed.exists_define (h : definitions.AreNamed) {name : String} {position : Nat}
    (hposition : definitions.positions.find? name = some position) :
    ∃ tree, definitions.defines[position]? = some tree ∧
      definitions.marked.find? (Child.registers name) = some ⟨tree, true⟩ := by
  obtain ⟨tree, -, htree, -, hname⟩ := getElem?_defines (h name position hposition)
  exact ⟨tree, htree, find?_markedFrom (by rw [hposition, Nat.zero_add]) htree hname⟩

theorem AreNamed.arePlaced (h : definitions.AreNamed) : definitions.ArePlaced := by
  intro name position hposition
  obtain ⟨tree, htree, -⟩ := h.exists_define hposition
  exact (List.getElem?_eq_some_iff.mp htree).1

/-- **The registered definition of a name is the child with its mark.** -/
theorem find?_eq_map_find? (h : definitions.AreNamed) (name : String) :
    definitions.find? name = (definitions.marked.find? (Child.registers name)).map Child.tree := by
  rw [Definitions.find?]
  cases hposition : definitions.positions.find? name with
  | none =>
    have hnone : definitions.marked.find? (Child.registers name) = none := by
      rw [find?_eq_none]
      intro child hchild hregisters
      obtain ⟨index, -, hindex⟩ := exists_of_registers hchild hregisters
      simp [hposition] at hindex
    rw [hnone]
    rfl
  | some position =>
    obtain ⟨tree, htree, hfound⟩ := h.exists_define hposition
    rw [hfound, Option.bind_some, htree]
    rfl

end Named

/-! ### Registration -/

section Registration

variable {definitions next : Definitions} {position : Nat} {tree : Tree}
    {trees : List Tree} {name : String}

theorem map_eq_self {f : Child → Child} {children : List Child}
    (h : ∀ child ∈ children, f child = child) : children.map f = children :=
  (map_congr_left h).trans (map_id children)

theorem extend_of_not_registers {child : Child} (h : ¬ child.registers name = true)
    (extra : List Tree) : child.extend name extra = child :=
  if_neg h

theorem unregister_of_not_registers {child : Child} (h : ¬ child.registers name = true) :
    child.unregister name = child :=
  if_neg h

/-- The definition at a registered position is the one that is extended. -/
theorem markedFrom_extendDefine {index : Nat} (extra : List Tree)
    (hposition : definitions.positions.find? name = some (position + index))
    (hname : (definedNames trees)[index]? = some (some name)) :
    definitions.markedFrom position (extendDefine extra index trees) =
      (definitions.markedFrom position trees).map (Child.extend name extra) := by
  induction trees generalizing position index with
  | nil => rfl
  | cons tree rest ih =>
    cases hdefine : isDefine tree with
    | false =>
      rw [definedNames_cons_of_not_isDefine hdefine] at hname
      rw [extendDefine_skip hdefine, markedFrom_other hdefine, markedFrom_other hdefine, map_cons,
        ih hposition hname, extend_of_not_registers (by simp [Child.registers])]
    | true =>
      rw [definedNames_cons_of_isDefine hdefine] at hname
      have hiff := @registers_iff definitions position tree name hdefine
      cases index with
      | zero =>
        have hextended : isDefine { tree with children := tree.children ++ extra } = true := hdefine
        have hregisters := hiff.mpr ⟨Option.some.inj hname, hposition⟩
        -- No later definition has the mark.
        have hrest : (definitions.markedFrom (position + 1) rest).map (Child.extend name extra) =
            definitions.markedFrom (position + 1) rest := by
          refine map_eq_self fun child hchild => extend_of_not_registers ?_ extra
          intro hmarked
          obtain ⟨index, -, hindex⟩ := exists_of_registers hchild hmarked
          have hsame := Option.some.inj (hposition.symm.trans hindex)
          omega
        rw [extendDefine_zero hdefine, markedFrom_define hextended, markedFrom_define hdefine,
          map_cons, hrest, Child.extend, if_pos hregisters]
        rfl
      | succ index =>
        have hother : ¬ Child.registers name ⟨tree,
            definitions.isRegistered position tree⟩ = true := by
          rw [hiff]
          rintro ⟨-, hsame⟩
          have heq := Option.some.inj (hposition.symm.trans hsame)
          omega
        rw [extendDefine_succ hdefine, markedFrom_define hdefine,
          markedFrom_define hdefine, map_cons, extend_of_not_registers hother,
          ih (by rw [hposition, Nat.add_right_comm, Nat.add_assoc]) hname]

/-- A definition loses its mark when its name is registered at another position. -/
theorem isRegistered_insert {children : List Tree} {last : Nat} (hdefine : isDefine tree = true)
    (hne : last ≠ position) :
    (⟨tree, isRegistered ⟨children, definitions.positions.insert name last⟩ position tree⟩ : Child)
      = Child.unregister name ⟨tree, definitions.isRegistered position tree⟩ := by
  have hiff := @registers_iff definitions position tree name hdefine
  by_cases hname : tree.attribute? "name" = some name
  · have hafter : isRegistered ⟨children, definitions.positions.insert name last⟩ position tree =
        false := by
      rw [isRegistered, hname, Option.bind_some, Catalogue.find?_insert, if_pos rfl]
      exact decide_eq_false fun hsame => hne (Option.some.inj hsame)
    rw [hafter, Child.unregister]
    split
    · rfl
    · rename_i hneg
      rw [hiff, not_and] at hneg
      have hbefore : definitions.isRegistered position tree = false := by
        rw [isRegistered, hname, Option.bind_some]
        exact decide_eq_false (hneg hname)
      rw [hbefore]
  · have hneg : ¬ Child.registers name ⟨tree, definitions.isRegistered position tree⟩ = true := by
      rw [hiff]
      exact fun hboth => hname hboth.1
    rw [unregister_of_not_registers hneg, isRegistered, isRegistered]
    cases hother : tree.attribute? "name" with
    | none => rfl
    | some other =>
      have hne' : other ≠ name := by
        rintro rfl
        exact hname hother
      rw [Option.bind_some, Option.bind_some, Catalogue.find?_insert, if_neg hne']

/-- A name that is registered behind some definitions is not registered at any of them any more. -/
theorem markedFrom_insert {children : List Tree} {last : Nat}
    (hlast : position + (trees.filter isDefine).length ≤ last) :
    markedFrom ⟨children, definitions.positions.insert name last⟩ position trees =
      (definitions.markedFrom position trees).map (Child.unregister name) := by
  induction trees generalizing position with
  | nil => rfl
  | cons tree rest ih =>
    cases hdefine : isDefine tree with
    | false =>
      rw [filter_cons_of_neg (by simp [hdefine])] at hlast
      rw [markedFrom_other hdefine, markedFrom_other hdefine, map_cons, ih hlast,
        unregister_of_not_registers (by simp [Child.registers])]
    | true =>
      rw [filter_cons_of_pos hdefine, length_cons] at hlast
      rw [markedFrom_define hdefine, markedFrom_define hdefine, map_cons, ih (by omega),
        isRegistered_insert hdefine (by omega)]

theorem isMetBy_of_name (hdefine : isDefine tree = true)
    (hname : tree.attribute? "name" = some name) : Child.isMetBy tree = Child.registers name := by
  funext child
  rw [Child.isMetBy, hdefine, hname, Bool.true_and, Option.any_some]

theorem update_of_name (hdefine : isDefine tree = true) (hname : tree.attribute? "name" = some name)
    (combined : Bool) : Child.update combined tree =
      if combined then Child.extend name tree.children else Child.unregister name := by
  funext child
  rw [Child.update, hdefine, hname]
  cases combined <;> rfl

theorem update_other (hdefine : isDefine tree = false) (combined : Bool) (child : Child) :
    child.update combined tree = child := by
  rw [Child.update, hdefine]

theorem any_registers_iff (h : definitions.AreNamed) :
    definitions.marked.any (Child.registers name) = true ↔
      ∃ position, definitions.positions.find? name = some position := by
  rw [any_eq_true]
  constructor
  · rintro ⟨child, hchild, hregisters⟩
    obtain ⟨index, -, hindex⟩ := exists_of_registers hchild hregisters
    exact ⟨_, hindex⟩
  · rintro ⟨position, hposition⟩
    obtain ⟨tree, htree, hfound⟩ := h.exists_define hposition
    exact ⟨_, mem_of_find?_eq_some hfound, find?_some hfound⟩

/-- A definition is combined with the registered one of its name. -/
theorem marked_extendDefine {target : Nat} (h : definitions.AreNamed)
    (hdefine : isDefine tree = true) (hname : tree.attribute? "name" = some name)
    (hcombine : tree.attribute? "combine" = some "interleave")
    (hposition : definitions.positions.find? name = some target) :
    marked ⟨extendDefine tree.children target definitions.children ++
      [{ tree with children := [] }],
      definitions.positions⟩ = mark definitions.marked tree := by
  have hemptied : isDefine { tree with children := [] } = true := hdefine
  have hcombines : combines definitions.marked tree = true := by
    rw [combines, isMetBy_of_name hdefine hname,
      (any_registers_iff h).mpr ⟨target, hposition⟩, hcombine]
    rfl
  have hkept : definitions.markedFrom 0 (extendDefine tree.children target definitions.children) =
      definitions.marked.map (Child.extend name tree.children) :=
    markedFrom_extendDefine _ (by rw [hposition, Nat.zero_add]) (h name target hposition)
  -- What is combined is behind all definitions, so it is not registered.
  have hlast : definitions.isRegistered definitions.defines.length { tree with children := [] } =
      false := by
    have hlt := h.arePlaced name target hposition
    rw [isRegistered, show ({ tree with children := [] } : Tree).attribute? "name" =
      some name from hname, Option.bind_some, hposition]
    exact decide_eq_false fun hsame => hlt.ne (Option.some.inj hsame)
  have hlength := length_filter_extendDefine tree.children target definitions.children
  rw [mark, hcombines, update_of_name hdefine hname, marked_mk, markedFrom_append, hkept, hlength,
    Nat.zero_add, markedFrom_define hemptied, ← defines, hlast]
  rfl

/-- A definition is registered itself, if there is none of its name or it is not to be combined. -/
theorem marked_insert (h : definitions.AreNamed) (hdefine : isDefine tree = true)
    (hname : tree.attribute? "name" = some name)
    (hnew : definitions.positions.find? name = none ∨
      tree.attribute? "combine" ≠ some "interleave") :
    marked ⟨definitions.children ++ [tree],
      definitions.positions.insert name definitions.defines.length⟩ =
      mark definitions.marked tree := by
  have hkept := @markedFrom_insert definitions 0 definitions.children name
    (definitions.children ++ [tree]) definitions.defines.length (Nat.zero_add _).le
  have hlast : isRegistered ⟨definitions.children ++ [tree],
      definitions.positions.insert name definitions.defines.length⟩
      definitions.defines.length tree =
      true := by
    rw [isRegistered, hname, Option.bind_some, Catalogue.find?_insert, if_pos rfl]
    exact decide_eq_true rfl
  have hcombines : combines definitions.marked tree = false := by
    rw [combines, isMetBy_of_name hdefine hname, Bool.and_eq_false_iff, decide_eq_false_iff_not]
    rcases hnew with hnone | hne
    · right
      rw [Bool.eq_false_iff, ne_eq, any_registers_iff h, hnone]
      simp
    · exact .inl hne
  rw [mark, hcombines, update_of_name hdefine hname, marked, markedFrom_append, hkept, Nat.zero_add,
    markedFrom_define hdefine, ← defines, hlast, Child.next, hdefine]
  rfl

/-- **Registration marks the next child.** -/
theorem marked_register (h : definitions.AreNamed)
    (hregister : register definitions tree = .ok next) :
    next.marked = mark definitions.marked tree := by
  obtain ⟨hother, rfl⟩ | ⟨name, target, hdefine, hname, hposition, hcombine, rfl⟩ |
    ⟨name, hdefine, hname, hnew, rfl⟩ := register_cases hregister
  · have hcombines : combines definitions.marked tree = false := by
      simp [combines, Child.isMetBy, hother]
    rw [mark, hcombines, map_eq_self fun child _ => update_other hother _ child, marked_mk,
      markedFrom_append, markedFrom_other hother, Child.next, hother]
    rfl
  · exact marked_extendDefine h hdefine hname hcombine hposition
  · exact marked_insert h hdefine hname hnew

/-- **Registration marks the children one after the other.** -/
theorem marked_foldlM_register (hnamed : definitions.AreNamed)
    {last : Definitions} (h : trees.foldlM register definitions = .ok last) :
    last.AreNamed ∧ last.marked = trees.foldl mark definitions.marked := by
  induction trees generalizing definitions with
  | nil =>
    obtain rfl := pure_eq_ok_iff.mp h
    exact ⟨hnamed, rfl⟩
  | cons tree rest ih =>
    rw [foldlM_cons] at h
    obtain ⟨next, hnext, hrest⟩ := bind_eq_ok_iff.mp h
    rw [foldl_cons, ← marked_register hnamed hnext]
    exact ih (hnamed.register hnext) hrest

end Registration

/-! ### Names of marked children -/

section Names

variable {tree : Tree} {children : List Child} {name : String}

theorem update_of_not_isMetBy {child : Child} (h : ¬ child.isMetBy tree = true) (combined : Bool) :
    child.update combined tree = child := by
  unfold Child.update
  split
  · rename_i name hdefine hname
    rw [isMetBy_of_name hdefine hname] at h
    rw [extend_of_not_registers h, unregister_of_not_registers h, ite_self]
  · rfl

theorem isDefineOf_of_registers {child : Child} (h : child.registers name = true) :
    isDefineOf name child.tree = true := by
  rw [Child.registers, Bool.and_eq_true] at h
  exact h.2

/-- A child is met by definitions of its own name only. -/
theorem isDefineOf_of_isMetBy {child : Child} (h : child.isMetBy tree = true) :
    isDefineOf name child.tree = isDefineOf name tree := by
  rw [Child.isMetBy, Bool.and_eq_true, Option.any_eq_true] at h
  obtain ⟨hdefine, other, hother, hregisters⟩ := h
  have hchild := isDefineOf_of_registers hregisters
  rw [isDefineOf, Bool.and_eq_true, decide_eq_true_eq] at hchild
  rw [isDefineOf, isDefineOf, hchild.1, hchild.2, hdefine, hother]

theorem isDefineOf_update (name : String) (combined : Bool) (tree : Tree) (child : Child) :
    isDefineOf name (child.update combined tree).tree = isDefineOf name child.tree := by
  unfold Child.update Child.extend Child.unregister
  split
  · split <;> split <;> rfl
  · rfl

theorem isDefineOf_next (name : String) (combined : Bool) (tree : Tree) :
    isDefineOf name (Child.next combined tree).tree = isDefineOf name tree := by
  unfold Child.next
  split <;> rfl

/-- Some children that keep apart from the others are marked apart from them. -/
theorem filter_mark_of_pos {p : Child → Bool}
    (hupdate : ∀ combined (child : Child), p (child.update combined tree) = p child)
    (hmet : ∀ child : Child, child.isMetBy tree = true → p child = true)
    (hnext : ∀ combined, p (Child.next combined tree) = true) :
    (mark children tree).filter p = mark (children.filter p) tree := by
  have hcombines : combines (children.filter p) tree = combines children tree := by
    unfold combines
    congr 1
    rw [any_filter]
    congr 1
    funext child
    cases hchild : child.isMetBy tree with
    | false => rw [Bool.and_false]
    | true => rw [hmet child hchild, Bool.and_true]
  have hcomp : p ∘ Child.update (combines children tree) tree = p := funext (hupdate _)
  rw [mark, mark, hcombines, filter_append, filter_map, hcomp,
    filter_cons_of_pos (hnext _), filter_nil]

/-- Some children that keep apart from the next one do not change. -/
theorem filter_mark_of_neg {p : Child → Bool}
    (hupdate : ∀ combined (child : Child), p (child.update combined tree) = p child)
    (hmet : ∀ child : Child, child.isMetBy tree = true → p child = false)
    (hnext : ∀ combined, p (Child.next combined tree) = false) :
    (mark children tree).filter p = children.filter p := by
  have hcomp : p ∘ Child.update (combines children tree) tree = p := funext (hupdate _)
  have hkept : (children.filter p).map (Child.update (combines children tree) tree) =
      children.filter p := by
    refine map_eq_self fun child hchild => update_of_not_isMetBy ?_ _
    intro hchildMet
    exact Bool.false_ne_true ((hmet child hchildMet).symm.trans (of_mem_filter hchild))
  rw [mark, filter_append, filter_map, hcomp, hkept,
    filter_cons_of_neg (Bool.eq_false_iff.mp (hnext _)), filter_nil, append_nil]

end Names

/-! ### Removed names and elements -/

section Reading

variable {definitions : Definitions} {position : Nat} {trees : List Tree}

/-- Marked children without what has one of the names. -/
def stripMarked (names : List String) (children : List Child) : List Child :=
  children.filterMap fun child =>
    if isRemoved names child.tree then none
      else some { child with tree := stripTree names child.tree }

theorem stripMarked_of_isRemoved {names : List String} {child : Child}
    (h : isRemoved names child.tree = true) (rest : List Child) :
    stripMarked names (child :: rest) = stripMarked names rest :=
  filterMap_cons_none (if_pos h)

theorem stripMarked_of_not_isRemoved {names : List String} {child : Child}
    (h : ¬ isRemoved names child.tree = true) (rest : List Child) :
    stripMarked names (child :: rest) =
      { child with tree := stripTree names child.tree } :: stripMarked names rest :=
  filterMap_cons_some (if_neg h)

theorem markedFrom_strip (names : List String) :
    definitions.markedFrom position (strip names trees) =
    stripMarked names (definitions.markedFrom position trees) := by
  induction trees generalizing position with
  | nil => rfl
  | cons tree rest ih =>
    have hkept := isDefine_stripTree names tree
    have hregistered : definitions.isRegistered position (stripTree names tree) =
        definitions.isRegistered position tree := by
      cases tree
      rfl
    cases hdefine : isDefine tree with
    | true =>
      rw [strip_define hdefine, markedFrom_define (hkept.trans hdefine), markedFrom_define hdefine,
        ih, hregistered, stripMarked_of_not_isRemoved (not_isRemoved_of_isDefine hdefine)]
    | false =>
      rw [markedFrom_other hdefine, strip]
      by_cases hremoved : isRemoved names tree = true
      · rw [if_pos hremoved, ih, stripMarked_of_isRemoved hremoved]
      · rw [if_neg hremoved, markedFrom_other (hkept.trans hdefine), ih,
          stripMarked_of_not_isRemoved hremoved]

theorem marked_stripRemoved (definitions : Definitions) : definitions.stripRemoved.marked =
    stripMarked (definitions.toTree.markedNames "removed") definitions.marked := by
  rw [stripRemoved, marked_mk, markedFrom_strip]
  rfl

theorem elementsFrom_eq_flatMap : definitions.elementsFrom position trees =
    (definitions.markedFrom position trees).flatMap fun child =>
      elementsBelow child.registered child.tree.children := by
  induction trees generalizing position with
  | nil => rfl
  | cons tree rest ih =>
    rw [elementsFrom, markedFrom]
    split <;> rw [ih, flatMap_cons]

/-- **Which elements are defined is said by the marks.** -/
theorem elements_eq_flatMap (definitions : Definitions) : definitions.elements =
    definitions.marked.flatMap fun child => elementsBelow child.registered child.tree.children :=
  elementsFrom_eq_flatMap

end Reading

/-! ### Two grammars -/

section Two

variable {definitions definitions' : Definitions}

/-- Definitions with named positions whose marked children are related. -/
structure AreMarked (R : List Child → List Child → Prop)
    (definitions definitions' : Definitions) : Prop where
  /-- The first ones are named. -/
  left : definitions.AreNamed
  /-- The second ones are named. -/
  right : definitions'.AreNamed
  /-- The marked children are related. -/
  marked : R definitions.marked definitions'.marked

/-- Bodies are the same where the same children are registered. -/
theorem find?_bodies_congr (h : definitions.AreNamed) (h' : definitions'.AreNamed) {name : String}
    (hfind : definitions'.marked.find? (Child.registers name) =
      definitions.marked.find? (Child.registers name)) :
    definitions'.bodies.find? name = definitions.bodies.find? name := by
  rw [find?_bodies h.arePlaced, find?_bodies h'.arePlaced, find?_eq_map_find? h,
    find?_eq_map_find? h', hfind]

/-- Elements are flattened alike where the same bodies are found and the same names are marked. -/
theorem flattenElement_congr {bodies bodies' : Catalogue (List Tree)} {names names' : List String}
    (hbodies : ∀ name, bodies'.find? name = bodies.find? name)
    (hnames : ∀ name, name ∈ names' ↔ name ∈ names) :
    flattenElement bodies' names' = flattenElement bodies names := by
  funext element
  simp only [flattenElement, expandContent, Expansion.expandBlock_congr hbodies, hnames]

theorem find?_eq_head?_findAll (tree : Tree) (name : String) :
    tree.find? name = (tree.findAll name).head? := by
  rw [Tree.find?, findAll, head?_filter]

/-- The start is looked for among the nodes of that name. -/
theorem startName_congr {tree tree' : Tree} (h : tree'.findAll "start" = tree.findAll "start") :
    startName tree' = startName tree := by
  rw [startName, startName, find?_eq_head?_findAll, find?_eq_head?_findAll, h]

end Two

end RelaxSchema.Definitions
