import RelaxSchema.Proofs.Grammar.Marking

/-!
# Definitions of one name

What becomes of each child of the grammar element when all of them are registered, from the children
in front of it and behind it (`Definitions.settle`).

* `Definitions.mark_settled`: registering one child more settles the children up to it;
* `Definitions.exists_isLatest`: a name that is defined has a last definition that is not combined
  with an earlier one;
* `Definitions.exists_collect_isCombined`: that one is registered, with the children of all later
  ones, and these are left without children.

A definition that is to be combined changes one child in front of it, the registered definition of
its name. It is registered because all definitions of the name behind it are combined, and then the
next one is combined with it as well.
-/

namespace RelaxSchema.Definitions

open List RelaxSchema.Tree

/-! ### Settled children -/

/-- Whether a definition is to be combined with an earlier one of its name. -/
def isCombining (tree : Tree) : Bool := tree.attribute? "combine" = some "interleave"

/-- Whether a definition of a name is combined with one in front of it: it is to be, and there is
one. -/
def isCombined (name : String) (before : List Tree) (tree : Tree) : Bool :=
  isCombining tree && before.any (isDefineOf name)

/-- The definitions of a name up to the next one that is not to be combined. -/
def combinedAmong (name : String) (after : List Tree) : List Tree :=
  (after.filter (isDefineOf name)).takeWhile isCombining

/-- A child of the grammar element, between others, after all of them are registered. A definition
that is combined is left without children. Another one gets those of the definitions that are
combined with it, and is registered if these are all that follow. -/
def settle (before : List Tree) (tree : Tree) (after : List Tree) : Child :=
  match isDefine tree, tree.attribute? "name" with
  | true, some name =>
    if isCombined name before tree then ⟨{ tree with children := [] }, false⟩
    else
      ⟨{ tree with children := tree.children ++ (combinedAmong name after).flatMap Tree.children },
        (after.filter (isDefineOf name)).all isCombining⟩
  | _, _ => ⟨tree, false⟩

/-- Some children of the grammar element, between others, after all of them are registered. -/
def settleAll (before : List Tree) : List Tree → List Tree → List Child
  | [], _ => []
  | tree :: rest, after =>
    settle before tree (rest ++ after) :: settleAll (before ++ [tree]) rest after

/-- The children of a grammar element after they are registered. -/
def settled (trees : List Tree) : List Child := settleAll [] trees []

section Settle

variable {name : String} {before after trees : List Tree} {tree next : Tree}

theorem isDefineOf_iff : isDefineOf name tree = true ↔
    isDefine tree = true ∧ tree.attribute? "name" = some name := by
  simp [isDefineOf]

theorem settle_of_isCombined (h : isDefineOf name tree = true)
    (hcombined : isCombined name before tree = true) :
    settle before tree after = ⟨{ tree with children := [] }, false⟩ := by
  rw [isDefineOf_iff] at h
  simp [settle, h, hcombined]

theorem settle_of_not_isCombined (h : isDefineOf name tree = true)
    (hcombined : isCombined name before tree = false) : settle before tree after =
      ⟨{ tree with children := tree.children ++ (combinedAmong name after).flatMap Tree.children },
        (after.filter (isDefineOf name)).all isCombining⟩ := by
  rw [isDefineOf_iff] at h
  simp [settle, h, hcombined]

theorem settle_other (h : ∀ name, isDefineOf name tree = false) :
    settle before tree after = ⟨tree, false⟩ := by
  unfold settle
  split
  · rename_i name hdefine hname
    exact absurd (isDefineOf_iff.mpr ⟨hdefine, hname⟩) (by simp [h name])
  · rfl

theorem isDefineOf_settle (name : String) (before : List Tree) (tree : Tree) (after : List Tree) :
    isDefineOf name (settle before tree after).tree = isDefineOf name tree := by
  unfold settle
  split
  · split <;> rfl
  · rfl

theorem isDefine_settle (before : List Tree) (tree : Tree) (after : List Tree) :
    isDefine (settle before tree after).tree = isDefine tree := by
  unfold settle
  split
  · split <;> rfl
  · rfl

/-- What is behind a definition matters only if it is one of the same name. -/
theorem settle_concat_of_not_isDefineOf
    (h : ∀ name, isDefineOf name tree = true → isDefineOf name next = false) :
    settle before tree (after ++ [next]) = settle before tree after := by
  by_cases hname : ∃ name, isDefineOf name tree = true
  · obtain ⟨name, hname⟩ := hname
    have hfilter : (after ++ [next]).filter (isDefineOf name) = after.filter (isDefineOf name) := by
      simp [h name hname]
    cases hcombined : isCombined name before tree with
    | true => rw [settle_of_isCombined hname hcombined, settle_of_isCombined hname hcombined]
    | false =>
      rw [settle_of_not_isCombined hname hcombined, settle_of_not_isCombined hname hcombined,
        combinedAmong, combinedAmong, hfilter]
  · have hother : ∀ name, isDefineOf name tree = false := by simpa using hname
    rw [settle_other hother, settle_other hother]

/-- What is behind an entry that ends a list does not belong to it. -/
theorem takeWhile_append_of_all_eq_false {α : Type} {p : α → Bool} {entries : List α}
    (more : List α) (h : entries.all p = false) :
    (entries ++ more).takeWhile p = entries.takeWhile p := by
  induction entries with
  | nil => simp at h
  | cons entry rest ih =>
    rw [cons_append, takeWhile_cons, takeWhile_cons]
    split
    · rename_i hentry
      rw [all_cons, hentry, Bool.true_and] at h
      rw [ih h]
    · rfl

/-- One definition more of a name and a child that is one: where the child is registered, the
definition is combined with it or takes its place. -/
theorem update_settle_of_isDefineOf (htree : isDefineOf name tree = true)
    (hnext : isDefineOf name next = true) :
    (settle before tree after).update (isCombining next) next =
      settle before tree (after ++ [next]) := by
  obtain ⟨hdefine, hname⟩ := isDefineOf_iff.mp hnext
  rw [update_of_name hdefine hname]
  cases hcombined : isCombined name before tree with
  | true =>
    rw [settle_of_isCombined htree hcombined, settle_of_isCombined htree hcombined]
    split
    · exact extend_of_not_registers (by simp [Child.registers]) next.children
    · exact unregister_of_not_registers (by simp [Child.registers])
  | false =>
    have hfilter : (after ++ [next]).filter (isDefineOf name) =
        after.filter (isDefineOf name) ++ [next] := by
      simp [hnext]
    have hkept : ∀ extra : List Tree,
        isDefineOf name { tree with children := tree.children ++ extra } = true := fun _ => htree
    rw [settle_of_not_isCombined htree hcombined, settle_of_not_isCombined htree hcombined,
      combinedAmong, combinedAmong, hfilter]
    cases hall : (after.filter (isDefineOf name)).all isCombining with
    | true =>
      have hforall := all_eq_true.mp hall
      have htake := takeWhile_eq_self_iff.mpr hforall
      rw [takeWhile_append_of_pos hforall, htake, all_append, hall]
      cases hcombining : isCombining next with
      | true => simp [Child.extend, Child.registers, hkept, hcombining]
      | false => simp [Child.unregister, Child.registers, hkept, hcombining]
    | false =>
      rw [takeWhile_append_of_all_eq_false _ hall, all_append, hall, Bool.false_and]
      split
      · exact extend_of_not_registers (by simp [Child.registers]) next.children
      · exact unregister_of_not_registers (by simp [Child.registers])

/-- What one child more does to a settled one. -/
theorem update_settle {combined : Bool}
    (h : ∀ name, isDefineOf name tree = true → isDefineOf name next = true →
      combined = isCombining next) :
    (settle before tree after).update combined next = settle before tree (after ++ [next]) := by
  by_cases hmet : ∃ name, isDefineOf name tree = true ∧ isDefineOf name next = true
  · obtain ⟨name, htree, hnext⟩ := hmet
    obtain rfl := h name htree hnext
    exact update_settle_of_isDefineOf htree hnext
  · have hother : ∀ name, isDefineOf name tree = true → isDefineOf name next = false := by
      intro name htree
      rw [Bool.eq_false_iff]
      exact fun hnext => hmet ⟨name, htree, hnext⟩
    rw [settle_concat_of_not_isDefineOf hother]
    apply update_of_not_isMetBy
    rw [Child.isMetBy, Bool.and_eq_true, Option.any_eq_true]
    rintro ⟨hdefine, name, hname, hregisters⟩
    have htree := isDefineOf_of_registers hregisters
    rw [isDefineOf_settle] at htree
    exact absurd (isDefineOf_iff.mpr ⟨hdefine, hname⟩) (by simp [hother name htree])

end Settle

/-! ### Lists of settled children -/

section SettleAll

variable {name : String} {before after trees : List Tree} {tree : Tree}

theorem settleAll_append (before trees others after : List Tree) :
    settleAll before (trees ++ others) after =
    settleAll before trees (others ++ after) ++ settleAll (before ++ trees) others after := by
  induction trees generalizing before with
  | nil => simp [settleAll]
  | cons tree rest ih => simp [settleAll, ih]

/-- A settled child stands where it stood. -/
theorem settled_split (before : List Tree) (tree : Tree) (after : List Tree) :
    settled (before ++ tree :: after) =
      settleAll [] before (tree :: after) ++ settle before tree after ::
        settleAll (before ++ [tree]) after [] := by
  simp [settled, settleAll_append, settleAll]

theorem length_settleAll (before trees after : List Tree) :
    (settleAll before trees after).length = trees.length := by
  induction trees generalizing before with
  | nil => rfl
  | cons tree rest ih => simp [settleAll, ih]

theorem length_filter_settleAll (before trees after : List Tree) :
    (((settleAll before trees after).map Child.tree).filter isDefine).length =
      (trees.filter isDefine).length := by
  induction trees generalizing before with
  | nil => rfl
  | cons tree rest ih =>
    rw [settleAll, map_cons, filter_cons, filter_cons, isDefine_settle]
    split <;> simp [ih]

theorem exists_of_mem_settleAll {child : Child} (h : child ∈ settleAll before trees after) :
    ∃ tree ∈ trees, ∃ before after, child = settle before tree after := by
  induction trees generalizing before with
  | nil => simp [settleAll] at h
  | cons tree rest ih =>
    rcases mem_cons.mp h with rfl | h
    · exact ⟨tree, mem_cons_self, _, _, rfl⟩
    · obtain ⟨other, hother, hchild⟩ := ih h
      exact ⟨other, mem_cons_of_mem _ hother, hchild⟩

/-- What changes each settled child changes all of them. -/
theorem map_settleAll {f : Child → Child} {after' : List Tree}
    (h : ∀ tree ∈ trees, ∀ before rest,
      f (settle before tree (rest ++ after)) = settle before tree (rest ++ after')) :
    (settleAll before trees after).map f = settleAll before trees after' := by
  induction trees generalizing before with
  | nil => rfl
  | cons tree rest ih =>
    obtain ⟨htree, hrest⟩ := forall_mem_cons.mp h
    rw [settleAll, map_cons, htree, ih hrest, settleAll]

/-! ### Registered definitions -/

/-- A child of the grammar element between others is the last definition of a name that is not
combined with an earlier one. -/
structure IsLatest (name : String) (before : List Tree) (tree : Tree)
    (after : List Tree) : Prop where
  /-- It is a definition of the name. -/
  named : isDefineOf name tree = true
  /-- It is the first one, or not to be combined. -/
  starts : isCombined name before tree = false
  /-- The later ones are to be combined. -/
  followed : ∀ other ∈ after.filter (isDefineOf name), isCombining other = true

theorem IsLatest.settle_eq (h : IsLatest name before tree after) : settle before tree after =
    ⟨{ tree with
      children := tree.children ++ (after.filter (isDefineOf name)).flatMap Tree.children },
      true⟩ := by
  have htake := takeWhile_eq_self_iff.mpr h.followed
  rw [settle_of_not_isCombined h.named h.starts, combinedAmong, htake, all_eq_true.mpr h.followed]

/-- **A name that is defined has a last definition** that is not combined with an earlier one. -/
theorem exists_isLatest (h : trees.any (isDefineOf name) = true) :
    ∃ before tree after, trees = before ++ tree :: after ∧ IsLatest name before tree after := by
  induction trees using reverseRecOn with
  | nil => simp at h
  | append_singleton trees last ih =>
    by_cases hlast : isDefineOf name last = true ∧ isCombined name trees last = false
    · exact ⟨trees, last, [], rfl, hlast.1, hlast.2, by simp⟩
    · -- The last child is no definition of the name, or combined with an earlier one.
      rw [not_and, Bool.not_eq_false] at hlast
      have hcombining : ∀ other ∈ [last].filter (isDefineOf name), isCombining other = true := by
        intro other hother
        obtain ⟨hmem, hnamed⟩ := mem_filter.mp hother
        obtain rfl := mem_singleton.mp hmem
        exact (Bool.and_eq_true _ _ ▸ hlast hnamed).1
      have hearlier : trees.any (isDefineOf name) = true := by
        rw [any_append, Bool.or_eq_true] at h
        exact h.elim id fun hnamed => (Bool.and_eq_true _ _ ▸ hlast (by simpa using hnamed)).2
      obtain ⟨before, tree, after, rfl, hlatest⟩ := ih hearlier
      refine ⟨before, tree, after ++ [last], by simp, hlatest.named, hlatest.starts, ?_⟩
      rw [filter_append, forall_mem_append]
      exact ⟨hlatest.followed, hcombining⟩

/-- A name is registered exactly if it is defined among the children. -/
theorem any_registers_settled (name : String) (trees : List Tree) :
    (settled trees).any (Child.registers name) = trees.any (isDefineOf name) := by
  rw [Bool.eq_iff_iff]
  constructor
  · intro h
    obtain ⟨child, hchild, hregisters⟩ := any_eq_true.mp h
    obtain ⟨tree, htree, before, after, rfl⟩ := exists_of_mem_settleAll hchild
    have hnamed := isDefineOf_of_registers hregisters
    rw [isDefineOf_settle] at hnamed
    exact any_eq_true.mpr ⟨tree, htree, hnamed⟩
  · intro h
    obtain ⟨before, tree, after, rfl, hlatest⟩ := exists_isLatest h
    have hnamed := (isDefineOf_settle name before tree after).trans hlatest.named
    rw [settled_split, any_append, any_cons, Child.registers, hnamed, hlatest.settle_eq]
    simp

/-! ### Registration -/

/-- **Registering one child more** settles the children up to it. -/
theorem mark_settled (trees : List Tree) {next : Tree}
    (h : isDefine next = true → ∃ name, next.attribute? "name" = some name) :
    mark (settled trees) next = settled (trees ++ [next]) := by
  have hcombines : ∀ name, isDefineOf name next = true →
      combines (settled trees) next = isCombined name trees next := by
    intro name hnext
    obtain ⟨hdefine, hname⟩ := isDefineOf_iff.mp hnext
    rw [combines, isMetBy_of_name hdefine hname, any_registers_settled]
    rfl
  have hupdate : (settled trees).map (Child.update (combines (settled trees) next) next) =
      settleAll [] trees [next] := by
    apply map_settleAll
    intro tree htree before rest
    rw [append_nil]
    refine update_settle fun name hname hnext => ?_
    have hany : trees.any (isDefineOf name) = true := any_eq_true.mpr ⟨tree, htree, hname⟩
    rw [hcombines name hnext, isCombined, hany, Bool.and_true]
  have hnext : Child.next (combines (settled trees) next) next = settle trees next [] := by
    by_cases hnamed : ∃ name, isDefineOf name next = true
    · obtain ⟨name, hnamed⟩ := hnamed
      rw [hcombines name hnamed]
      cases hcombined : isCombined name trees next with
      | true => rw [settle_of_isCombined hnamed hcombined, Child.next, if_pos rfl]
      | false =>
        rw [settle_of_not_isCombined hnamed hcombined, Child.next, if_neg Bool.false_ne_true]
        show (⟨next, isDefine next⟩ : Child) = ⟨{ next with children := next.children ++ [] }, true⟩
        rw [append_nil, (isDefineOf_iff.mp hnamed).1]
        cases next
        rfl
    · have hother : isDefine next = false := by
        rw [Bool.eq_false_iff]
        intro hdefine
        obtain ⟨name, hname⟩ := h hdefine
        exact hnamed ⟨name, isDefineOf_iff.mpr ⟨hdefine, hname⟩⟩
      have hcombined : combines (settled trees) next = false := by
        simp [combines, Child.isMetBy, hother]
      rw [hcombined, Child.next, if_neg Bool.false_ne_true,
        settle_other (by simp [isDefineOf, hother]), hother]
  rw [mark, hupdate, hnext, settled, settleAll_append, append_nil]
  rfl

end SettleAll

/-- The children of a grammar element are settled when all of them are registered. -/
theorem marked_collect {grammar : Tree} {definitions : Definitions}
    (h : collect grammar = .ok definitions) :
    definitions.AreNamed ∧ definitions.marked = settled grammar.children := by
  obtain ⟨hnamed, hmarked⟩ := marked_foldlM_register areNamed_empty h
  have hsettle : ∀ seen trees : List Tree,
      (∀ tree ∈ trees, isDefine tree = true → ∃ name, tree.attribute? "name" = some name) →
      trees.foldl mark (settled seen) = settled (seen ++ trees) := by
    intro seen trees hnames
    induction trees generalizing seen with
    | nil => rw [foldl_nil, append_nil]
    | cons tree rest ih =>
      obtain ⟨htree, hrest⟩ := forall_mem_cons.mp hnames
      rw [foldl_cons, mark_settled seen htree, ih _ hrest, append_assoc, singleton_append]
  exact ⟨hnamed, hmarked.trans (hsettle [] grammar.children (exists_name_of_foldlM_register h))⟩

section Collect

variable {grammar tree : Tree} {definitions : Definitions} {name : String}
    {before after : List Tree}

theorem children_collect (h : collect grammar = .ok definitions) :
    definitions.children = (settled grammar.children).map Child.tree := by
  rw [← (marked_collect h).2, map_tree_marked]

/-- Each child is settled in its place. -/
theorem getElem?_children_collect (h : collect grammar = .ok definitions)
    (hsplit : grammar.children = before ++ tree :: after) :
    definitions.children[before.length]? = some (settle before tree after).tree := by
  have hlength := length_settleAll [] before (tree :: after)
  rw [children_collect h, hsplit, settled_split, getElem?_map, ← hlength,
    getElem?_append_right le_rfl, Nat.sub_self]
  rfl

/-- The definition that is marked is at the position that is registered. -/
theorem find?_of_isLatest (h : collect grammar = .ok definitions)
    (hsplit : grammar.children = before ++ tree :: after)
    (hlatest : IsLatest name before tree after) :
    definitions.positions.find? name = some (before.filter isDefine).length ∧
      definitions.find? name = some (settle before tree after).tree := by
  obtain ⟨-, hmarked⟩ := marked_collect h
  have hnamed := (isDefineOf_settle name before tree after).trans hlatest.named
  have hdefine := (isDefineOf_iff.mp hnamed).1
  have hlength := length_filter_settleAll [] before (tree :: after)
  have hchildren := children_collect h
  rw [hsplit, settled_split, map_append, map_cons] at hchildren
  have hregistered : definitions.isRegistered (before.filter isDefine).length
      (settle before tree after).tree = true := by
    rw [hsplit, settled_split, marked, hchildren, markedFrom_append, markedFrom_define hdefine,
      hlength, Nat.zero_add] at hmarked
    have hsame := congrArg length (@map_tree_markedFrom definitions 0
      ((settleAll [] before (tree :: after)).map Child.tree))
    rw [length_map, length_map] at hsame
    have hchild := head_eq_of_cons_eq (append_inj hmarked hsame).2
    rw [hlatest.settle_eq] at hchild ⊢
    exact congrArg Child.registered hchild
  have hposition :=
    ((registers_iff hdefine).mp (by rw [Child.registers, hregistered, hnamed]; rfl)).2
  refine ⟨hposition, ?_⟩
  rw [Definitions.find?, hposition, Option.bind_some, defines, hchildren, filter_append,
    filter_cons_of_pos hdefine, ← hlength, getElem?_append_right le_rfl, Nat.sub_self]
  rfl

/-- A name is registered exactly if it is defined among the children. -/
theorem mem_names_collect (h : collect grammar = .ok definitions) :
    name ∈ definitions.positions.names ↔ grammar.children.any (isDefineOf name) = true := by
  obtain ⟨hnamed, hmarked⟩ := marked_collect h
  rw [Catalogue.mem_names_iff, ← any_registers_iff hnamed, hmarked, any_registers_settled]

theorem some_mem_definedNames {trees : List Tree} :
    some name ∈ definedNames trees ↔ trees.any (isDefineOf name) = true := by
  simp [definedNames, isDefineOf, and_assoc]

/-- There are as many positions as names. -/
theorem size_collect (h : collect grammar = .ok definitions) :
    definitions.size = (definedNames grammar.children).dedup.length := by
  have hnodup : (definitions.positions.names.map some).Nodup :=
    Nodup.map (Option.some_injective _) definitions.positions.nodup
  have hperm : definitions.positions.names.map some ~ (definedNames grammar.children).dedup := by
    rw [perm_ext_iff_of_nodup hnodup (nodup_dedup _)]
    intro entry
    rw [mem_dedup, mem_map]
    constructor
    · rintro ⟨name, hname, rfl⟩
      exact some_mem_definedNames.mpr ((mem_names_collect h).mp hname)
    · intro hentry
      obtain ⟨tree, htree, rfl⟩ := mem_map.mp hentry
      obtain ⟨hmem, hdefine⟩ := mem_filter.mp htree
      obtain ⟨name, hname⟩ := exists_name_of_foldlM_register h tree hmem hdefine
      rw [hname] at hentry ⊢
      exact ⟨name, (mem_names_collect h).mpr (some_mem_definedNames.mp hentry), rfl⟩
  rw [← hperm.length_eq, length_map]
  exact (length_map Prod.fst).symm

end Collect

/-- What becomes of the definitions of a grammar element. -/
structure AreCombined (grammar : Tree) (definitions : Definitions) : Prop where
  /-- No child is added and none goes away. -/
  length_children : definitions.children.length = grammar.children.length
  /-- A child that is no definition stays as it is. -/
  other : ∀ before tree after, grammar.children = before ++ tree :: after → isDefine tree = false →
    definitions.children[before.length]? = some tree
  /-- A definition that is combined with one in front of it stays in its place without children. -/
  combined : ∀ name before tree after, grammar.children = before ++ tree :: after →
    isDefineOf name tree = true → isCombined name before tree = true →
    definitions.children[before.length]? = some { tree with children := [] }
  /-- Another definition keeps its children in their places, and those of the definitions up to the
  next one that is not to be combined come behind them. -/
  extended : ∀ name before tree after, grammar.children = before ++ tree :: after →
    isDefineOf name tree = true → isCombined name before tree = false →
    definitions.children[before.length]? =
      some { tree with
        children := tree.children ++ (combinedAmong name after).flatMap Tree.children }
  /-- A name that is defined has a last definition that is not combined with an earlier one. -/
  exists_isLatest : ∀ name, grammar.children.any (isDefineOf name) = true →
    ∃ before tree after, grammar.children = before ++ tree :: after ∧
      IsLatest name before tree after
  /-- That definition is registered, and holds its children and those of all later ones. -/
  registered : ∀ name before tree after, grammar.children = before ++ tree :: after →
    IsLatest name before tree after →
    definitions.positions.find? name = some (before.filter isDefine).length ∧
      definitions.find? name =
      some { tree with
        children := tree.children ++ (after.filter (isDefineOf name)).flatMap Tree.children }
  /-- No other name is registered, in particular none that is only defined further down. -/
  find?_eq_none : ∀ name, grammar.children.any (isDefineOf name) = false →
    definitions.find? name = none
  /-- The distinct names are counted. -/
  size_eq : definitions.size = (definedNames grammar.children).dedup.length

/-- **What becomes of the definitions of a grammar element** whose definitions all have names. -/
theorem exists_collect_areCombined {grammar : Tree}
    (hnames : ∀ tree ∈ grammar.children, isDefine tree = true →
      ∃ name, tree.attribute? "name" = some name) :
    ∃ definitions, collect grammar = .ok definitions ∧ AreCombined grammar definitions := by
  obtain ⟨definitions, h⟩ := exists_foldlM_register_of_name hnames ⟨[], .empty⟩
  refine ⟨definitions, h, ?_⟩
  have hchildren := children_collect h
  constructor
  · rw [hchildren, length_map, settled, length_settleAll]
  · intro before tree after hsplit hother
    rw [getElem?_children_collect h hsplit, settle_other (by simp [isDefineOf, hother])]
  · intro name before tree after hsplit hnamed hcombined
    rw [getElem?_children_collect h hsplit, settle_of_isCombined hnamed hcombined]
  · intro name before tree after hsplit hnamed hcombined
    rw [getElem?_children_collect h hsplit, settle_of_not_isCombined hnamed hcombined]
  · exact fun name hname => exists_isLatest hname
  · intro name before tree after hsplit hlatest
    obtain ⟨hposition, hfind⟩ := find?_of_isLatest h hsplit hlatest
    rw [hfind, hlatest.settle_eq]
    exact ⟨hposition, rfl⟩
  · intro name hnone
    have hposition : definitions.positions.find? name = none := by
      rw [Option.eq_none_iff_forall_ne_some]
      intro position hposition
      rw [(mem_names_collect h).mp (Catalogue.mem_names_iff.mpr ⟨position, hposition⟩)] at hnone
      simp at hnone
    rw [Definitions.find?, hposition]
    rfl
  · exact size_collect h

/-- The first definition of a name is not combined, the second one is combined with it and goes with
it when the third one takes their place. -/
theorem exists_collect_areCombined_overridden :
    let define (name text : String) (combine : Bool) : Tree :=
      ⟨"define", .ofList (("name", name) :: if combine then [("combine", "interleave")] else []),
        [.plain text []]⟩
    let grammar : Tree := .plain "grammar" [define "a" "first" true, define "b" "value" false,
      define "a" "second" true, .plain "start" [define "c" "nested" false],
      define "a" "third" false, define "b" "data" true, define "a" "fourth" true]
    ∃ definitions, collect grammar = .ok definitions ∧ AreCombined grammar definitions ∧
      definitions.size = 2 ∧
      definitions.find? "a" = some ⟨"define", .ofList [("name", "a")],
        [.plain "third" [], .plain "fourth" []]⟩ ∧
      definitions.children[0]?.map Tree.children = some [.plain "first" [], .plain "second" []] ∧
      definitions.find? "c" = none := by
  intro define grammar
  have hnames : ∀ tree ∈ grammar.children, isDefine tree = true →
      ∃ name, tree.attribute? "name" = some name := by
    simp only [← Option.isSome_iff_exists]
    decide +kernel
  obtain ⟨definitions, hcollect, h⟩ := exists_collect_areCombined hnames
  let before : List Tree := [define "a" "first" true, define "b" "value" false,
    define "a" "second" true, .plain "start" [define "c" "nested" false]]
  have hlatest : IsLatest "a" before (define "a" "third" false) [define "b" "data" true,
      define "a" "fourth" true] :=
    ⟨by decide +kernel, by decide +kernel, by decide +kernel⟩
  have hfirst := h.extended "a" [] (define "a" "first" true) _ rfl (by decide +kernel)
    (by decide +kernel)
  refine ⟨definitions, hcollect, h, h.size_eq.trans (by decide +kernel),
    (h.registered "a" before _ _ rfl hlatest).2, ?_, h.find?_eq_none "c" (by decide +kernel)⟩
  rw [show definitions.children[0]? = _ from hfirst]
  rfl

end RelaxSchema.Definitions
