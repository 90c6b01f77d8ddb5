import RelaxSchema.Proofs.Catalogue
import RelaxSchema.Proofs.Traversal
import RelaxSchema.Proofs.Grammar.Core

/-!
# Registration of definitions

A definition is combined with an earlier one of its name or takes the next position
(`Definitions.register_cases`). From this:

* `Definitions.arePlaced_collect`, `Definitions.areApart_collect`: each position is that of a
  definition, and no two names share one;
* `Definitions.exists_collect`: definitions of distinct names are all registered, and stay as they
  are.
-/

namespace RelaxSchema.Definitions

open List RelaxSchema.Tree

/-! ### One definition -/

section Step

variable {definitions next : Definitions} {tree : Tree}

theorem extendDefine_skip {tree : Tree} (h : isDefine tree = false) (extra : List Tree)
    (position : Nat) (rest : List Tree) :
    extendDefine extra position (tree :: rest) = tree :: extendDefine extra position rest := by
  rw [extendDefine.eq_def]
  simp [h]

theorem extendDefine_zero {tree : Tree} (h : isDefine tree = true) (extra rest : List Tree) :
    extendDefine extra 0 (tree :: rest) =
      { tree with children := tree.children ++ extra } :: rest := by
  rw [extendDefine, if_pos h]

theorem extendDefine_succ {tree : Tree} (h : isDefine tree = true) (extra : List Tree)
    (position : Nat) (rest : List Tree) :
    extendDefine extra (position + 1) (tree :: rest) =
      tree :: extendDefine extra position rest := by
  rw [extendDefine, if_pos h]

theorem definedNames_extendDefine (extra : List Tree) (position : Nat) (children : List Tree) :
    definedNames (extendDefine extra position children) = definedNames children := by
  induction children generalizing position with
  | nil => rfl
  | cons tree rest ih =>
    cases hdefine : isDefine tree with
    | false =>
      rw [extendDefine_skip hdefine, definedNames_cons_of_not_isDefine hdefine,
        definedNames_cons_of_not_isDefine hdefine, ih]
    | true =>
      cases position with
      | zero =>
        have hextended : isDefine { tree with children := tree.children ++ extra } = true := hdefine
        rw [extendDefine_zero hdefine, definedNames_cons_of_isDefine hdefine,
          definedNames_cons_of_isDefine hextended]
        rfl
      | succ position =>
        rw [extendDefine_succ hdefine, definedNames_cons_of_isDefine hdefine,
          definedNames_cons_of_isDefine hdefine, ih]

theorem length_filter_extendDefine (extra : List Tree) (position : Nat) (children : List Tree) :
    ((extendDefine extra position children).filter isDefine).length =
      (children.filter isDefine).length := by
  rw [← length_definedNames, definedNames_extendDefine, length_definedNames]

/-- What registration does: a definition is combined with the one that is registered, or is
registered itself. -/
theorem register_cases (h : register definitions tree = .ok next) :
    (isDefine tree = false ∧
      next = { definitions with children := definitions.children ++ [tree] }) ∨
    (∃ name target, isDefine tree = true ∧ tree.attribute? "name" = some name ∧
      definitions.positions.find? name = some target ∧
        tree.attribute? "combine" = some "interleave" ∧
      next =
        { definitions with children := extendDefine tree.children target definitions.children ++
        [{ tree with children := [] }] }) ∨
    (∃ name, isDefine tree = true ∧ tree.attribute? "name" = some name ∧
      (definitions.positions.find? name = none ∨ tree.attribute? "combine" ≠ some "interleave") ∧
      next = ⟨definitions.children ++ [tree],
        definitions.positions.insert name definitions.defines.length⟩) := by
  unfold register at h
  cases hdefine : isDefine tree with
  | false =>
    rw [hdefine] at h
    exact .inl ⟨rfl, (Except.ok.inj h).symm⟩
  | true =>
    rw [hdefine, if_pos rfl] at h
    split at h
    · simp at h
    · rename_i name hname
      split at h
      · rename_i target hfound hcombine
        exact .inr (.inl ⟨name, target, rfl, hname, hfound, hcombine, (Except.ok.inj h).symm⟩)
      · rename_i hnone
        refine .inr (.inr ⟨name, rfl, hname, ?_, (Except.ok.inj h).symm⟩)
        by_contra hboth
        obtain ⟨hfound, hcombine⟩ := not_or.mp hboth
        obtain ⟨target, htarget⟩ := Option.ne_none_iff_exists'.mp hfound
        exact hnone target htarget (not_not.mp hcombine)

theorem register_other (h : isDefine tree = false) : register definitions tree =
    .ok { definitions with children := definitions.children ++ [tree] } := by
  rw [register, h, if_neg Bool.false_ne_true]

/-- A definition that is not combined is registered behind the others. -/
theorem register_of_new {name : String} (hdefine : isDefine tree = true)
    (hname : tree.attribute? "name" = some name)
    (hnew : definitions.positions.find? name = none ∨
      tree.attribute? "combine" ≠ some "interleave") :
    register definitions tree = .ok ⟨definitions.children ++ [tree],
      definitions.positions.insert name definitions.defines.length⟩ := by
  unfold register
  rw [if_pos hdefine]
  simp only [hname]
  split
  · rename_i target hfound hcombine
    rcases hnew with hnone | hne
    · simp [hnone] at hfound
    · exact absurd hcombine hne
  · rfl

/-- A definition that is combined hands over its children. -/
theorem register_of_combined {name : String} {target : Nat} (hdefine : isDefine tree = true)
    (hname : tree.attribute? "name" = some name)
    (hfound : definitions.positions.find? name = some target)
    (hcombine : tree.attribute? "combine" = some "interleave") :
    register definitions tree = .ok { definitions with
      children := extendDefine tree.children target definitions.children ++
        [{ tree with children := [] }] } := by
  rw [register, if_pos hdefine, hname]
  simp only [hfound, hcombine]

theorem register_of_no_name (hdefine : isDefine tree = true) (hname : tree.attribute? "name" = none)
    (definitions : Definitions) :
    register definitions tree = .error (.grammar .defineWithoutName) := by
  rw [register, if_pos hdefine, hname]

/-- Only a definition without a name is not registered. -/
theorem exists_register_of_name
    (h : isDefine tree = true → ∃ name, tree.attribute? "name" = some name)
    (definitions : Definitions) : ∃ next, register definitions tree = .ok next := by
  cases hdefine : isDefine tree with
  | false => exact ⟨_, register_other hdefine⟩
  | true =>
    obtain ⟨name, hname⟩ := h hdefine
    unfold register
    rw [if_pos hdefine, hname]
    dsimp only
    split <;> exact ⟨_, rfl⟩

/-- The number of definitions grows with each that is registered. -/
theorem length_defines_register (h : register definitions tree = .ok next) :
    next.defines.length = definitions.defines.length + if isDefine tree = true then 1 else 0 := by
  obtain ⟨hother, rfl⟩ | ⟨name, target, hdefine, -, -, -, rfl⟩ | ⟨name, hdefine, -, -, rfl⟩ :=
    register_cases h
  · rw [hother, defines, defines, filter_append, filter_cons_of_neg (by simp [hother])]
    simp
  · have hemptied : isDefine { tree with children := [] } = true := hdefine
    rw [if_pos hdefine, defines, defines, filter_append, length_append, length_filter_extendDefine,
      filter_cons_of_pos hemptied]
    rfl
  · rw [if_pos hdefine, defines, defines, filter_append, length_append, filter_cons_of_pos hdefine]
    rfl

end Step

/-! ### Names -/

section Names

variable {definitions next last : Definitions} {tree : Tree} {trees : List Tree}

theorem exists_name_of_register (h : register definitions tree = .ok next) :
    isDefine tree = true → ∃ name, tree.attribute? "name" = some name := by
  intro hdefine
  rw [← Option.ne_none_iff_exists']
  intro hnone
  rw [register_of_no_name hdefine hnone] at h
  cases h

/-- Registration succeeds exactly if each definition has a name. -/
theorem exists_name_of_foldlM_register (h : trees.foldlM register definitions = .ok last) :
    ∀ tree ∈ trees, isDefine tree = true → ∃ name, tree.attribute? "name" = some name := by
  induction trees generalizing definitions with
  | nil => exact fun tree htree => absurd htree not_mem_nil
  | cons tree rest ih =>
    rw [foldlM_cons] at h
    obtain ⟨next, hnext, hrest⟩ := bind_eq_ok_iff.mp h
    exact forall_mem_cons.mpr ⟨exists_name_of_register hnext, ih hrest⟩

theorem exists_foldlM_register_of_name
    (h : ∀ tree ∈ trees, isDefine tree = true → ∃ name, tree.attribute? "name" = some name)
    (definitions : Definitions) : ∃ last, trees.foldlM register definitions = .ok last := by
  induction trees generalizing definitions with
  | nil => exact ⟨definitions, rfl⟩
  | cons tree rest ih =>
    obtain ⟨htree, hrest⟩ := forall_mem_cons.mp h
    obtain ⟨next, hnext⟩ := exists_register_of_name htree definitions
    obtain ⟨last, hlast⟩ := ih hrest next
    exact ⟨last, (foldlM_cons ..).trans (bind_eq_ok_iff.mpr ⟨next, hnext, hlast⟩)⟩

end Names

/-! ### Positions -/

section Positions

variable {definitions next : Definitions} {tree : Tree} {position : Nat}

/-- Each registered position is that of a definition. -/
def ArePlaced (definitions : Definitions) : Prop :=
  ∀ name position, definitions.positions.find? name = some position →
    position < definitions.defines.length

theorem ArePlaced.register (h : definitions.ArePlaced)
    (hregister : register definitions tree = .ok next) : next.ArePlaced := by
  intro name position hposition
  have hlength := length_defines_register hregister
  have hbefore : definitions.positions.find? name = some position →
      position < definitions.defines.length := h name position
  obtain ⟨-, rfl⟩ | ⟨_, _, -, -, -, -, rfl⟩ | ⟨added, hdefine, -, -, rfl⟩ :=
    register_cases hregister
  · have hlt := hbefore hposition
    omega
  · have hlt := hbefore hposition
    omega
  · rw [if_pos hdefine] at hlength
    rw [Catalogue.find?_insert] at hposition
    split at hposition
    · have hlast := Option.some.inj hposition
      omega
    · have hlt := hbefore hposition
      omega

theorem arePlaced_collect {grammar : Tree} (h : collect grammar = .ok definitions) :
    definitions.ArePlaced := by
  refine foldlM_induction (fun _ _ _ _ hplaced hregister => hplaced.register hregister) ?_ h
  intro name position hposition
  simp [Catalogue.find?, Catalogue.empty] at hposition

/-- No two names are registered at the same position. -/
def AreApart (definitions : Definitions) : Prop :=
  ∀ name other position, definitions.positions.find? name = some position →
    definitions.positions.find? other = some position → name = other

theorem AreApart.register (h : definitions.AreApart) (hplaced : definitions.ArePlaced)
    (hregister : register definitions tree = .ok next) : next.AreApart := by
  obtain ⟨-, rfl⟩ | ⟨_, _, -, -, -, -, rfl⟩ | ⟨added, -, -, -, rfl⟩ := register_cases hregister
  · exact h
  · exact h
  · intro name other position hname hother
    rw [Catalogue.find?_insert] at hname hother
    split at hname <;> split at hother
    · rename_i hfirst hsecond
      rw [hfirst, hsecond]
    · exact absurd (hplaced other position hother) ((Option.some.inj hname).symm ▸ lt_irrefl _)
    · exact absurd (hplaced name position hname) ((Option.some.inj hother).symm ▸ lt_irrefl _)
    · exact h name other position hname hother

theorem areApart_collect {grammar : Tree} (h : collect grammar = .ok definitions) :
    definitions.AreApart := by
  refine (foldlM_induction (P := fun definitions => definitions.ArePlaced ∧ definitions.AreApart)
    (fun _ _ _ _ hstate hstep => ⟨hstate.1.register hstep, hstate.2.register hstate.1 hstep⟩) ?_
    h).2
  constructor <;> intro name <;> simp [Catalogue.find?, Catalogue.empty]

/-- A position that is taken later is behind the definitions that were there. -/
theorem find?_positions_foldlM {trees : List Tree} {last : Definitions} {name : String}
    (h : trees.foldlM register definitions = .ok last)
    (hposition : last.positions.find? name = some position) :
    definitions.positions.find? name = some position ∨ definitions.defines.length ≤ position := by
  induction trees generalizing definitions with
  | nil =>
    obtain rfl := pure_eq_ok_iff.mp h
    exact .inl hposition
  | cons tree rest ih =>
    rw [foldlM_cons] at h
    obtain ⟨next, hnext, hrest⟩ := bind_eq_ok_iff.mp h
    have hlength := length_defines_register hnext
    rcases ih hrest with hfound | hle
    · obtain ⟨-, rfl⟩ | ⟨_, _, -, -, -, -, rfl⟩ | ⟨other, -, -, -, rfl⟩ := register_cases hnext
      · exact .inl hfound
      · exact .inl hfound
      · rw [Catalogue.find?_insert] at hfound
        split at hfound
        · exact .inr (Option.some.inj hfound).le
        · exact .inl hfound
    · exact .inr (by omega)

end Positions

/-! ### Distinct names -/

/-- A name is registered at a position exactly if the definition there has that name. -/
def AreRegistered (definitions : Definitions) : Prop :=
  ∀ name position, definitions.positions.find? name = some position ↔
    (definedNames definitions.children)[position]? = some (some name)

theorem areRegistered_empty : AreRegistered ⟨[], .empty⟩ := by
  intro name position
  constructor <;> intro h
  · simp [Catalogue.find?, Catalogue.empty] at h
  · simp [definedNames] at h

theorem length_defines (definitions : Definitions) :
    definitions.defines.length = (definedNames definitions.children).length :=
  (length_definedNames definitions.children).symm

theorem getElem?_concat_eq_some_iff {α : Type} {entries : List α} {last entry : α}
    {position : Nat} : (entries ++ [last])[position]? = some entry ↔
      entries[position]? = some entry ∨ (position = entries.length ∧ last = entry) := by
  rcases Nat.lt_trichotomy position entries.length with hlt | rfl | hgt
  · rw [List.getElem?_append_left hlt]
    simp [hlt.ne]
  · simp
  · have hlength : (entries ++ [last]).length ≤ position := by
      rw [List.length_append]
      exact hgt
    rw [List.getElem?_eq_none hlength, List.getElem?_eq_none hgt.le]
    simp [hgt.ne']

section Register

variable {definitions : Definitions} {tree : Tree}

/-- A definition of a new name is registered behind the others. -/
theorem AreRegistered.insert (h : definitions.AreRegistered) (hdefine : isDefine tree = true)
    {name : String} (hname : tree.attribute? "name" = some name)
    (hnew : definitions.positions.find? name = none) :
    AreRegistered ⟨definitions.children ++ [tree],
      definitions.positions.insert name definitions.defines.length⟩ := by
  intro other position
  have hnames : definedNames (definitions.children ++ [tree]) =
      definedNames definitions.children ++ [some name] := by
    rw [definedNames_append, definedNames_cons_of_isDefine hdefine, hname]
    rfl
  rw [hnames, Catalogue.find?_insert, length_defines, getElem?_concat_eq_some_iff, ← h]
  by_cases hother : other = name
  · rw [if_pos hother, hother, hnew]
    simp [eq_comm]
  · rw [if_neg hother]
    simp [Ne.symm hother]

theorem exists_register (h : definitions.AreRegistered)
    (hname : isDefine tree = true → ∃ name, tree.attribute? "name" = some name)
    (hnodup : (definedNames (definitions.children ++ [tree])).Nodup) :
    ∃ next, register definitions tree = .ok next ∧ next.children = definitions.children ++ [tree] ∧
      next.AreRegistered := by
  cases hdefine : isDefine tree with
  | true =>
    obtain ⟨name, hname⟩ := hname hdefine
    have hnew : definitions.positions.find? name = none := by
      rw [Option.eq_none_iff_forall_ne_some]
      intro position hposition
      rw [definedNames_append, definedNames_cons_of_isDefine hdefine, hname] at hnodup
      have hmem := List.mem_of_getElem? ((h name position).mp hposition)
      exact List.disjoint_of_nodup_append hnodup hmem List.mem_cons_self
    exact ⟨_, register_of_new hdefine hname (.inl hnew), rfl, h.insert hdefine hname hnew⟩
  | false =>
    refine ⟨_, register_other hdefine, rfl, fun other position => ?_⟩
    have hnone : definedNames [tree] = [] := definedNames_cons_of_not_isDefine hdefine []
    rw [h, definedNames_append, hnone, List.append_nil]

theorem exists_foldlM_register {trees : List Tree} (h : definitions.AreRegistered)
    (hnames : ∀ tree ∈ trees, isDefine tree = true → ∃ name, tree.attribute? "name" = some name)
    (hnodup : (definedNames (definitions.children ++ trees)).Nodup) :
    ∃ all, trees.foldlM register definitions = .ok all ∧
      all.children = definitions.children ++ trees ∧ all.AreRegistered := by
  induction trees generalizing definitions with
  | nil => exact ⟨definitions, rfl, (List.append_nil _).symm, h⟩
  | cons tree rest ih =>
    rw [List.append_cons] at hnodup
    have hfirst : (definedNames (definitions.children ++ [tree])).Nodup := by
      rw [definedNames_append] at hnodup
      exact (List.nodup_append.mp hnodup).1
    obtain ⟨next, hnext, hchildren, hregistered⟩ :=
      exists_register h (hnames tree List.mem_cons_self) hfirst
    obtain ⟨all, hall, hsame, hlast⟩ := ih hregistered
      (fun other hother => hnames other (List.mem_cons_of_mem _ hother)) (by rwa [hchildren])
    refine ⟨all, ?_, by rw [hsame, hchildren, ← List.append_cons], hlast⟩
    rw [List.foldlM_cons]
    exact bind_eq_ok_iff.mpr ⟨next, hnext, hall⟩

end Register

/-- The children of a grammar as they are, with its definitions all registered. -/
structure IsRegistryOf (grammar : Tree) (definitions : Definitions) : Prop where
  /-- The children are kept. -/
  children_eq : definitions.children = grammar.children
  /-- The positions are right. -/
  areRegistered : definitions.AreRegistered

/-- **Definitions of distinct names are all registered.** -/
theorem exists_collect {grammar : Tree}
    (hnames : ∀ tree ∈ grammar.children, isDefine tree = true →
      ∃ name, tree.attribute? "name" = some name)
    (hnodup : (definedNames grammar.children).Nodup) :
    ∃ definitions, collect grammar = .ok definitions ∧ IsRegistryOf grammar definitions := by
  obtain ⟨all, hall, hchildren, hregistered⟩ :=
    exists_foldlM_register areRegistered_empty hnames hnodup
  exact ⟨all, hall, hchildren, hregistered⟩

end RelaxSchema.Definitions
