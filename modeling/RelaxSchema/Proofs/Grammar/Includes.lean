import RelaxSchema.Proofs.Traversal
import RelaxSchema.Proofs.Grammar.Substitution

/-!
# Includes in place

What loading a grammar gives, said on trees alone (`Loader.Expands`): the tree of the file, with
each outermost include below its grammar element replaced by the children of the grammar element
that the included file expands to.

* `Loader.Expands.unique`: a file expands to at most one tree;
* `Loader.Expands.findAll_include`: no include remains below the grammar element;
* `Loader.loadEntry_expands`: what is loaded is the expansion of the file that is found.

The loader lists the includes first and then edits the forest. An include that is not outermost is
treated as well, when it already has left the document. The invariant of the loop is that the
document, with all pending includes replaced at once, is always the same
(`PlantedTree.expandedAll_replaceAll`).
-/

namespace RelaxSchema

open List

/-! ### Trees with pending elements -/

namespace PlantedTree

mutual

/-- The trees that a tree becomes when each outermost pending element stands for other trees. -/
def expanded (pending : List Nat) (news : Nat → List Tree) : PlantedTree → List Tree
  | ⟨id, name, attributes, children⟩ =>
    if id ∈ pending then news id else [⟨name, attributes, expandedAll pending news children⟩]

/-- The trees that several trees become. -/
def expandedAll (pending : List Nat) (news : Nat → List Tree) : List PlantedTree → List Tree
  | [] => []
  | tree :: rest => expanded pending news tree ++ expandedAll pending news rest

end

section Expanded

variable {pending : List Nat} {news : Nat → List Tree}

theorem expandedAll_cons (tree : PlantedTree) (rest : List PlantedTree) :
    expandedAll pending news (tree :: rest) =
      (if tree.id ∈ pending then news tree.id
        else [⟨tree.name, tree.attributes, expandedAll pending news tree.children⟩]) ++
        expandedAll pending news rest := by
  cases tree
  rw [expandedAll, expanded]

theorem expandedAll_append (trees others : List PlantedTree) :
    expandedAll pending news (trees ++ others) =
      expandedAll pending news trees ++ expandedAll pending news others := by
  induction trees with
  | nil => rfl
  | cons tree rest ih => rw [cons_append, expandedAll_cons, expandedAll_cons, ih, append_assoc]

/-- Nothing changes where no element is pending. -/
theorem expandedAll_of_forall_notMem {trees : List PlantedTree}
    (h : ∀ id ∈ ids trees, id ∉ pending) : expandedAll pending news trees = trees.map toTree := by
  induction trees using PlantedTree.induction with
  | nil => rfl
  | cons tree rest ihchildren ihrest =>
    rw [ids_cons, forall_mem_cons, forall_mem_append] at h
    rw [expandedAll_cons, if_neg h.1, ihchildren h.2.1, ihrest h.2.2, map_cons, toTree_eq,
      singleton_append]

/-- An element that is replaced is one that was pending. -/
theorem expandedAll_replaceAll {element : Nat} {others : List PlantedTree}
    (hothers : ∀ id ∈ ids others, id ∉ pending) (hnews : others.map toTree = news element)
    (trees : List PlantedTree) :
    expandedAll pending news (replaceAll element others trees) =
      expandedAll (element :: pending) news trees := by
  induction trees using PlantedTree.induction with
  | nil => rfl
  | cons tree rest ihchildren ihrest =>
    rw [replaceAll, expandedAll_append, ihrest, expandedAll_cons]
    congr 1
    by_cases hid : tree.id = element
    · rw [if_pos hid, if_pos (hid ▸ mem_cons_self),
        expandedAll_of_forall_notMem hothers, hnews, hid]
    · have hmem : tree.id ∈ element :: pending ↔ tree.id ∈ pending := by
        rw [mem_cons, or_iff_right hid]
      obtain ⟨id, name, attributes, children⟩ := tree
      rw [if_neg hid, replaceIn, expandedAll, expandedAll, append_nil, expanded, ihchildren]
      simp only [hmem]

theorem expandedAll_replaceIn {element : Nat} {others : List PlantedTree}
    (hothers : ∀ id ∈ ids others, id ∉ pending) (hnews : others.map toTree = news element)
    {tree : PlantedTree} (hroot : tree.id ≠ element) :
    expandedAll pending news [tree.replaceIn element others] =
      expandedAll (element :: pending) news [tree] := by
  rw [← expandedAll_replaceAll hothers hnews, replaceAll, replaceAll, if_neg hroot, append_nil]

/-- Where all pending elements are below the grammar element, only its children are others. -/
theorem expandedAll_eq_setGrammarAll {trees : List PlantedTree} {grammar : PlantedTree}
    (hgrammar : (preorderAll trees).find? (fun node => node.name = "grammar") = some grammar)
    (hnodup : (ids trees).Nodup) (hpending : ∀ id ∈ pending, id ∈ ids grammar.children) :
    expandedAll pending news trees =
      Tree.setGrammarAll (expandedAll pending news grammar.children) (trees.map toTree) := by
  induction trees using PlantedTree.induction with
  | nil => simp [preorderAll] at hgrammar
  | cons tree rest ihchildren ihrest =>
    rw [ids_cons, nodup_cons, mem_append, not_or, nodup_append] at hnodup
    obtain ⟨⟨hroot, hroot'⟩, hchildren, hrest, hapart⟩ := hnodup
    rw [preorderAll, preorder_eq, cons_append] at hgrammar
    rw [expandedAll_cons, map_cons, Tree.setGrammarAll, mentions_toTree, preorder_eq]
    -- The grammar element is the first tree, or it is below it, or the first tree does not have it.
    by_cases hname : tree.name = "grammar"
    · rw [find?_cons_of_pos (by simpa using hname)] at hgrammar
      obtain rfl := Option.some.inj hgrammar
      have hnone : ∀ id ∈ ids rest, id ∉ pending := fun id hid hmem =>
        hapart id (hpending id hmem) id hid rfl
      rw [find?_cons_of_pos (by simpa using hname), if_neg (fun hmem => hroot (hpending _ hmem)),
        Option.isSome_some, if_pos rfl, toTree_eq, Tree.setGrammar, if_pos hname,
        expandedAll_of_forall_notMem hnone, singleton_append]
    · rw [find?_cons_of_neg (by simpa using hname), find?_append] at hgrammar
      rw [find?_cons_of_neg (by simpa using hname)]
      cases hfound : (preorderAll tree.children).find? fun node => node.name = "grammar" with
      | some other =>
        rw [hfound, Option.some_or] at hgrammar
        obtain rfl := Option.some.inj hgrammar
        have hsubset := (sublist_ids_of_mem (mem_of_find?_eq_some hfound)).subset
        have hbelow : ∀ id ∈ pending, id ∈ ids tree.children := fun id hid =>
          hsubset (ids_singleton other ▸ mem_cons_of_mem _ (hpending id hid))
        have hnone : ∀ id ∈ ids rest, id ∉ pending := fun id hid hmem =>
          hapart id (hbelow id hmem) id hid rfl
        rw [if_neg (fun hmem => hroot (hbelow _ hmem)), Option.isSome_some, if_pos rfl, toTree_eq,
          Tree.setGrammar, if_neg hname, ihchildren hfound hchildren,
          expandedAll_of_forall_notMem hnone, singleton_append]
      | none =>
        rw [hfound, Option.none_or] at hgrammar
        have hsubset := (sublist_ids_of_mem (mem_of_find?_eq_some hgrammar)).subset
        have hbelow : ∀ id ∈ pending, id ∈ ids rest := fun id hid =>
          hsubset (ids_singleton grammar ▸ mem_cons_of_mem _ (hpending id hid))
        have hnone : ∀ id ∈ ids tree.children, id ∉ pending := fun id hid hmem =>
          hapart id hid id (hbelow id hmem) rfl
        rw [if_neg (fun hmem => hroot' (hbelow _ hmem)), Option.isSome_none,
          if_neg Bool.false_ne_true, expandedAll_of_forall_notMem hnone, ihrest hgrammar hrest,
          toTree_eq, singleton_append]

theorem expandedAll_eq_setGrammar {tree grammar : PlantedTree}
    (hgrammar : tree.grammar? = some grammar) (hnodup : (ids [tree]).Nodup)
    (hpending : ∀ id ∈ pending, id ∈ ids grammar.children) :
    expandedAll pending news [tree] =
      [tree.toTree.setGrammar (expandedAll pending news grammar.children)] := by
  have hmentions : tree.toTree.mentions "grammar" := by
    rw [mentions_toTree, ← PlantedTree.grammar?, hgrammar]
    rfl
  rw [expandedAll_eq_setGrammarAll (preorderAll_singleton tree ▸ hgrammar) hnodup hpending,
    map_singleton, Tree.setGrammarAll, if_pos hmentions]

end Expanded

/-! ### Listed includes -/

/-- The ids of the includes at and below some trees. -/
def includeIds (trees : List PlantedTree) : List Nat :=
  ((preorderAll trees).filter fun node => node.name = "include").map PlantedTree.id

theorem includeIds_sublist (trees : List PlantedTree) : includeIds trees <+ ids trees :=
  filter_sublist.map _

theorem mem_includeIds_iff {trees : List PlantedTree} (hnodup : (ids trees).Nodup)
    {node : PlantedTree} (hnode : node ∈ preorderAll trees) :
    node.id ∈ includeIds trees ↔ node.name = "include" := by
  rw [includeIds, mem_map]
  constructor
  · rintro ⟨other, hother, hid⟩
    obtain ⟨hother, hname⟩ := mem_filter.mp hother
    obtain rfl := inj_on_of_nodup_map hnodup hother hnode hid
    simpa using hname
  · intro hname
    exact ⟨node, mem_filter.mpr ⟨hnode, by simpa using hname⟩, rfl⟩

end PlantedTree

/-! ### What a file expands to -/

namespace Loader

mutual

/-- The file at a location expands to a tree. -/
inductive Expands (loader : Loader) : Location → Tree → Prop
  /-- The includes below the grammar element are replaced. -/
  | intro {location : Location} {text : String} {parsed grammar : Tree} {children : List Tree} :
      location.text loader.store = .ok text →
      Tree.parse text (some location.display) = .ok parsed →
      parsed.grammar? = some grammar →
      ExpandsAll loader location grammar.children children →
      Expands loader location (parsed.setGrammar children)

/-- Trees of the file at a location expand to other trees. -/
inductive ExpandsAll (loader : Loader) : Location → List Tree → List Tree → Prop
  /-- No trees. -/
  | nil {location : Location} : ExpandsAll loader location [] []
  /-- The children of the included grammar element stand for an include. What is in the include does
  not matter. -/
  | include {location : Location} {tree included grammar : Tree} {rest more : List Tree}
      {href path : String} :
      tree.name = "include" →
      tree.attribute? "href" = some href →
      lookUp? loader.store href (some location.baseDirectory) loader.searchDirectories = some path →
      Expands loader (.file path) included →
      included.grammar? = some grammar →
      ExpandsAll loader location rest more →
      ExpandsAll loader location (tree :: rest) (grammar.children ++ more)
  /-- Any other tree stays, and what is below it expands. -/
  | node {location : Location} {tree : Tree} {below rest more : List Tree} :
      tree.name ≠ "include" →
      ExpandsAll loader location tree.children below →
      ExpandsAll loader location rest more →
      ExpandsAll loader location (tree :: rest) (⟨tree.name, tree.attributes, below⟩ :: more)

end

variable {loader : Loader}

mutual

/-- **A file expands to at most one tree.** -/
theorem Expands.unique {location : Location} {tree other : Tree} :
    loader.Expands location tree → loader.Expands location other → tree = other
  | .intro htext hparse hgrammar hchildren, .intro htext' hparse' hgrammar' hchildren' => by
    obtain rfl := Except.ok.inj (htext.symm.trans htext')
    obtain rfl := Except.ok.inj (hparse.symm.trans hparse')
    obtain rfl := Option.some.inj (hgrammar.symm.trans hgrammar')
    rw [ExpandsAll.unique hchildren hchildren']

theorem ExpandsAll.unique {location : Location} {trees children others : List Tree} :
    loader.ExpandsAll location trees children → loader.ExpandsAll location trees others →
      children = others
  | .nil, .nil => rfl
  | .include _ hhref hpath hincluded hgrammar hrest,
    .include _ hhref' hpath' hincluded' hgrammar' hrest' => by
    obtain rfl := Option.some.inj (hhref.symm.trans hhref')
    obtain rfl := Option.some.inj (hpath.symm.trans hpath')
    obtain rfl := Expands.unique hincluded hincluded'
    obtain rfl := Option.some.inj (hgrammar.symm.trans hgrammar')
    rw [ExpandsAll.unique hrest hrest']
  | .node _ hbelow hrest, .node _ hbelow' hrest' => by
    rw [ExpandsAll.unique hbelow hbelow', ExpandsAll.unique hrest hrest']
  | .include hname .., .node hname' .. => absurd hname hname'
  | .node hname .., .include hname' .. => absurd hname' hname

end

mutual

/-- No include is among what trees expand to. -/
theorem Expands.forall_descendants {location : Location} {tree : Tree} :
    loader.Expands location tree →
      ∃ grammar, tree.grammar? = some grammar ∧ ∀ node ∈ grammar.descendants, node.name ≠ "include"
  | .intro _ _ hgrammar hchildren => by
    refine ⟨_, (Tree.grammar?_setGrammar _ _).trans (by rw [hgrammar, Option.map_some]), ?_⟩
    exact ExpandsAll.forall_preorderAll hchildren

theorem ExpandsAll.forall_preorderAll {location : Location} {trees children : List Tree} :
    loader.ExpandsAll location trees children →
      ∀ node ∈ Tree.preorderAll children, node.name ≠ "include"
  | .nil => fun _ hnode => absurd hnode not_mem_nil
  | .include _ _ _ hincluded hgrammar hrest => by
    obtain ⟨grammar, hgrammar', hnone⟩ := Expands.forall_descendants hincluded
    obtain rfl := Option.some.inj (hgrammar.symm.trans hgrammar')
    rw [Tree.preorderAll_append, forall_mem_append]
    exact ⟨hnone, ExpandsAll.forall_preorderAll hrest⟩
  | .node hname hbelow hrest => by
    rw [Tree.preorderAll, Tree.preorder_eq, cons_append, forall_mem_cons, forall_mem_append]
    exact ⟨hname, ExpandsAll.forall_preorderAll hbelow, ExpandsAll.forall_preorderAll hrest⟩

end

/-- **No include remains below the grammar element.** -/
theorem Expands.findAll_include {location : Location} {tree : Tree}
    (h : loader.Expands location tree) :
    ∃ grammar, tree.grammar? = some grammar ∧ grammar.findAll "include" = [] := by
  obtain ⟨grammar, hgrammar, hnone⟩ := h.forall_descendants
  refine ⟨grammar, hgrammar, filter_eq_nil_iff.mpr fun node hnode => ?_⟩
  simpa using hnone node hnode

/-- What stands for an include with an address, or without one. -/
def Includes (loader : Loader) (location : Location) (href : Option String)
    (children : List Tree) : Prop :=
  ∃ address path included grammar, href = some address ∧
    lookUp? loader.store address (some location.baseDirectory)
      loader.searchDirectories = some path ∧
    loader.Expands (.file path) included ∧ included.grammar? = some grammar ∧
      grammar.children = children

/-- Replacing the includes among some trees and below them expands them. -/
theorem expandsAll_expandedAll {location : Location} {pending : List Nat} {news : Nat → List Tree}
    {trees : List PlantedTree}
    (hpending : ∀ node ∈ PlantedTree.preorderAll trees, node.id ∈ pending ↔ node.name = "include")
    (hnews : ∀ node ∈ PlantedTree.preorderAll trees, node.name = "include" →
      loader.Includes location (node.attributes.find? "href") (news node.id)) :
    loader.ExpandsAll location (trees.map PlantedTree.toTree)
      (PlantedTree.expandedAll pending news trees) := by
  induction trees using PlantedTree.induction with
  | nil => exact .nil
  | cons tree rest ihchildren ihrest =>
    rw [PlantedTree.preorderAll, PlantedTree.preorder_eq, cons_append, forall_mem_cons,
      forall_mem_append] at hpending hnews
    have hrest := ihrest hpending.2.2 hnews.2.2
    rw [map_cons, PlantedTree.toTree_eq, PlantedTree.expandedAll_cons]
    by_cases hname : tree.name = "include"
    · obtain ⟨address, path, included, grammar, hhref, hpath, hexpands, hgrammar, hchildren⟩ :=
        hnews.1 hname
      rw [if_pos (hpending.1.mpr hname), ← hchildren]
      exact .include hname hhref hpath hexpands hgrammar hrest
    · rw [if_neg fun hmem => hname (hpending.1.mp hmem), singleton_append]
      exact .node hname (ihchildren hpending.2.1 hnews.2.1) hrest

/-! ### The loop -/

variable {load : Location → Except Error Forest} {location : Location}

/-- The trees that are put in the place of an include. -/
def includedTrees (loader : Loader) (load : Location → Except Error Forest) (location : Location)
    (href : Option String) : List Tree :=
  match loader.included load location href with
  | .error _ => []
  | .ok (other, grammar) => (other.children grammar).map other.tree

theorem expandInclude_eq_ok {forest forest' : Forest} {element parent : Nat}
    (hparent : forest.parent? element = some parent)
    (h : loader.expandInclude load location forest element = .ok forest') :
    ∃ other grammar, loader.included load location (forest.attribute? element "href") =
        .ok (other, grammar) ∧
          forest' = forest.substitute parent element other (other.children grammar) := by
  obtain ⟨⟨other, grammar⟩, hincluded, hresult⟩ := bind_eq_ok_iff.mp h
  simp only [hparent] at hresult
  exact ⟨other, grammar, hincluded, (Except.ok.inj hresult).symm⟩

/-- Includes of a forest that are still to be replaced, with their addresses. -/
structure ArePending (forest : Forest) (hrefs : Nat → Option String)
    (pending : List Nat) : Prop where
  /-- No include is listed twice. -/
  nodup : pending.Nodup
  /-- Each of them has a parent. -/
  exists_parent : ∀ id ∈ pending, ∃ parent, forest.parent? id = some parent
  /-- The addresses are theirs. -/
  attribute?_eq : ∀ id ∈ pending, forest.attribute? id "href" = hrefs id

section Pending

variable {forest forest' : Forest} {hrefs : Nat → Option String} {pending : List Nat}

theorem ArePending.lt_size (h : ArePending forest hrefs pending) :
    ∀ id ∈ pending, id < forest.size := by
  intro id hid
  obtain ⟨parent, hparent⟩ := h.exists_parent id hid
  exact Forest.lt_size_of_parent? hparent

/-- What is still to be replaced stays so when the first include is replaced, wherever it is. -/
theorem ArePending.substitute {element parent : Nat} {trees : List PlantedTree}
    (h : ArePending forest hrefs (element :: pending))
    (hsubstituted : Forest.IsSubstituted forest forest' parent element trees) :
    ArePending forest' hrefs pending := by
  obtain ⟨hnotMem, hnodup⟩ := nodup_cons.mp h.nodup
  have hlt : ∀ id ∈ pending, id < forest.size := fun id hid => h.lt_size id (mem_cons_of_mem _ hid)
  refine ⟨hnodup, fun id hid => ?_, fun id hid => ?_⟩
  · have hne : id ≠ element := fun hsame => hnotMem (hsame ▸ hid)
    rw [hsubstituted.parent?_eq id (hlt id hid) hne]
    exact h.exists_parent id (mem_cons_of_mem _ hid)
  · rw [Forest.attribute?, hsubstituted.attributes_eq id (hlt id hid)]
    exact h.attribute?_eq id (mem_cons_of_mem _ hid)

/-- The includes that are worked off one after the other are all found, and the document has all of
them replaced. -/
theorem isDocument_foldlM_expandInclude {tree : PlantedTree} (h : forest.IsDocument tree)
    (hpending : ArePending forest hrefs pending)
    (hfold : pending.foldlM (loader.expandInclude load location) forest = .ok forest') :
    (∀ id ∈ pending, ∃ found, loader.included load location (hrefs id) = .ok found) ∧
      ∃ tree', forest'.IsDocument tree' ∧ [tree'.toTree] = PlantedTree.expandedAll pending
        (fun id => loader.includedTrees load location (hrefs id)) [tree] := by
  induction pending generalizing forest tree with
  | nil =>
    obtain rfl := Except.ok.inj hfold
    refine ⟨fun id hid => absurd hid not_mem_nil, tree, h, ?_⟩
    rw [PlantedTree.expandedAll_of_forall_notMem fun _ _ => not_mem_nil]
    rfl
  | cons element rest ih =>
    obtain ⟨middle, hstep, hrest⟩ := bind_eq_ok_iff.mp ((foldlM_cons ..).symm.trans hfold)
    obtain ⟨parent, hparent⟩ := hpending.exists_parent element mem_cons_self
    obtain ⟨other, grammar, hincluded, rfl⟩ := expandInclude_eq_ok hparent hstep
    rw [hpending.attribute?_eq element mem_cons_self] at hincluded
    obtain ⟨trees, htrees, hsubstituted⟩ :=
      Forest.exists_isSubstituted h.isLinked hparent other (other.children grammar)
    obtain ⟨hfound, tree', htree', hexpanded⟩ :=
      ih (h.substitute hparent hsubstituted) (hpending.substitute hsubstituted) hrest
    refine ⟨forall_mem_cons.mpr ⟨⟨_, hincluded⟩, hfound⟩, tree', htree', ?_⟩
    -- The trees that were put in have new ids.
    have hfresh : ∀ id ∈ PlantedTree.ids trees, id ∉ rest := by
      intro id hid hmem
      have hbounds := hsubstituted.bounds id hid
      have hlt := hpending.lt_size id (mem_cons_of_mem _ hmem)
      omega
    have hnews : trees.map PlantedTree.toTree =
        loader.includedTrees load location (hrefs element) := by
      rw [htrees, includedTrees, hincluded]
    rw [hexpanded, PlantedTree.expandedAll_replaceIn hfresh hnews (h.ne_of_parent hparent)]

end Pending

/-! ### Loading -/

/-- The includes below an element of the document are pending at first. -/
theorem arePending_findAll {forest : Forest} {tree other : PlantedTree} (h : forest.IsDocument tree)
    (hother : other ∈ tree.preorder) : ArePending forest (fun id => forest.attribute? id "href")
      (forest.findAll other.id "include") := by
  obtain ⟨upper, hholds⟩ := h.exists_holds hother
  have hsublist := PlantedTree.includeIds_sublist other.children
  rw [h.findAll_eq hother, ← PlantedTree.includeIds]
  exact ⟨(h.nodup_ids_children hother).sublist hsublist,
    fun id hid => hholds.exists_parent (hsublist.subset hid), fun _ _ => rfl⟩

theorem includes_of_included {href : Option String} {other : Forest} {grammar : Nat}
    (hload : ∀ path other, load (.file path) = .ok other →
      ∃ tree, other.IsDocument tree ∧ loader.Expands (.file path) tree.toTree)
    (h : loader.included load location href = .ok (other, grammar)) :
    loader.Includes location href ((other.children grammar).map other.tree) := by
  unfold included at h
  split at h
  · cases h
  · rename_i address
    obtain ⟨found, hresolve, hrest⟩ := bind_eq_ok_iff.mp h
    obtain ⟨forest, hforest, hgrammar⟩ := bind_eq_ok_iff.mp hrest
    unfold resolve at hresolve
    split at hresolve
    · cases hresolve
    · rename_i path hpath
      obtain rfl := Except.ok.inj hresolve
      obtain ⟨tree, htree, hexpands⟩ := hload path forest hforest
      split at hgrammar
      · cases hgrammar
      · rename_i id hid
        obtain ⟨rfl, rfl⟩ := Prod.mk.inj (Except.ok.inj hgrammar)
        obtain ⟨planted, hplanted, rfl⟩ :=
          Option.map_eq_some_iff.mp (htree.grammar?_eq.symm.trans hid)
        refine ⟨address, path, tree.toTree, planted.toTree, rfl, hpath, hexpands, ?_, ?_⟩
        · rw [PlantedTree.grammar?_toTree, hplanted, Option.map_some]
        · exact (htree.map_tree_children (mem_of_find?_eq_some hplanted)).symm

/-- **The loop expands the children of the grammar element**, if the included files are loaded as
their expansions. -/
theorem expandsAll_foldlM_expandInclude {forest forest' : Forest} {tree grammar : PlantedTree}
    (hload : ∀ path other, load (.file path) = .ok other →
      ∃ tree, other.IsDocument tree ∧ loader.Expands (.file path) tree.toTree)
    (h : forest.IsDocument tree) (hgrammar : tree.grammar? = some grammar)
    (hfold : (forest.findAll grammar.id "include").foldlM
      (loader.expandInclude load location) forest = .ok forest') :
    ∃ tree' children, forest'.IsDocument tree' ∧ tree'.toTree = tree.toTree.setGrammar children ∧
      loader.ExpandsAll location grammar.toTree.children children := by
  have hmem : grammar ∈ tree.preorder := mem_of_find?_eq_some hgrammar
  have hnodup := h.nodup_ids_children hmem
  have hsublist := PlantedTree.includeIds_sublist grammar.children
  -- What is pending are the includes below the grammar element.
  have hpending := arePending_findAll h hmem
  rw [h.findAll_eq hmem, ← PlantedTree.includeIds] at hfold hpending
  obtain ⟨hfound, tree', htree', hexpanded⟩ := isDocument_foldlM_expandInclude h hpending hfold
  rw [PlantedTree.expandedAll_eq_setGrammar hgrammar h.nodup fun id hid => hsublist.subset hid]
    at hexpanded
  refine ⟨tree', _, htree', singleton_inj.mp hexpanded, ?_⟩
  rw [PlantedTree.children_toTree]
  refine expandsAll_expandedAll (fun node => PlantedTree.mem_includeIds_iff hnodup)
    fun node hnode hname => ?_
  obtain ⟨⟨other, id⟩, hincluded⟩ :=
    hfound node.id ((PlantedTree.mem_includeIds_iff hnodup hnode).mpr hname)
  obtain ⟨parent, hnodeHolds⟩ :=
    h.exists_holds (PlantedTree.preorder_trans hmem (PlantedTree.mem_preorder_of_below hnode))
  have hattribute : forest.attribute? node.id "href" = node.attributes.find? "href" := by
    rw [Forest.attribute?, hnodeHolds.node_eq]
  rw [includedTrees, hincluded, ← hattribute]
  exact includes_of_included hload hincluded

/-- The forest that is loaded has the expansion of the file as its document. -/
theorem expands_of_loadWithin {budget : Nat} {forest : Forest}
    (h : loader.loadWithin budget location = .ok forest) :
    ∃ tree, forest.IsDocument tree ∧ loader.Expands location tree.toTree := by
  induction budget generalizing location forest with
  | zero => cases h
  | succ budget ih =>
    obtain ⟨parsed, hparse, hrest⟩ := bind_eq_ok_iff.mp h
    obtain ⟨text, htext, hrestParse⟩ := bind_eq_ok_iff.mp hparse
    obtain ⟨-, -, hparsed⟩ := bind_eq_ok_iff.mp hrestParse
    obtain ⟨tree, rfl, htree⟩ := Forest.isDocument_ofTree parsed
    simp only [htree.grammar?_eq] at hrest
    cases hgrammar : tree.grammar? with
    | none =>
      rw [hgrammar] at hrest
      cases hrest
    | some grammar =>
      simp only [hgrammar, Option.map_some] at hrest
      obtain ⟨tree', children, htree', hsame, hchildren⟩ := expandsAll_foldlM_expandInclude
        (fun path other hother => ih hother) htree hgrammar hrest
      have hgrammar' := PlantedTree.grammar?_toTree tree
      rw [hgrammar, Option.map_some] at hgrammar'
      exact ⟨tree', htree', hsame ▸ .intro htext hparsed hgrammar' hchildren⟩

/-- **What is loaded is the expansion of the file that is found**: the only tree that is the one of
that file with each outermost include below its grammar element replaced, in its place, by what it
stands for. No include remains. -/
theorem loadEntry_expands {entry : String} {tree : Tree} (h : loader.loadEntry entry = .ok tree) :
    ∃ path, lookUp? loader.store entry none loader.searchDirectories = some path ∧
      loader.Expands (.file path) tree ∧
        (∀ other, loader.Expands (.file path) other → other = tree) ∧
      ∃ grammar, tree.grammar? = some grammar ∧ grammar.findAll "include" = [] := by
  unfold loadEntry at h
  split at h
  · cases h
  · rename_i path hpath
    obtain ⟨forest, hforest, htree⟩ := bind_eq_ok_iff.mp h
    obtain ⟨planted, hplanted, hexpands⟩ := expands_of_loadWithin hforest
    have hroot := hplanted.tree_eq (PlantedTree.self_mem_preorder planted)
    rw [hplanted.id_eq] at hroot
    obtain rfl : planted.toTree = tree := hroot.symm.trans (Except.ok.inj htree)
    exact ⟨path, hpath, hexpands, fun other hother => hother.unique hexpands,
      hexpands.findAll_include⟩

/-- A loader of three files. The second one is included from below another element, with an include
in the include, and includes the third one from its own directory, where the grammar is not the
root. -/
def nestedIncludes : Loader where
  store := (MemoryStore.ofFiles [
    ("m",
      "<grammar><div><include href='p/a'><include href='p/b'/></include></div><start/></grammar>"),
    ("p/a", "<grammar><include href='b'/><define/></grammar>"),
    ("p/b", "<library><grammar><text/></grammar></library>")]).toStore

theorem loadEntry_expands_nested :
    let tree := Tree.plain "grammar"
      [.plain "div" [.plain "text" [], .plain "define" []], .plain "start" []]
    nestedIncludes.loadEntry "m" = .ok tree ∧ ∃ path, nestedIncludes.Expands (.file path) tree := by
  have hloaded : nestedIncludes.loadEntry "m" = .ok (.plain "grammar"
      [.plain "div" [.plain "text" [], .plain "define" []], .plain "start" []]) := by
    cbv
  obtain ⟨path, -, hexpands, -⟩ := loadEntry_expands hloaded
  exact ⟨hloaded, path, hexpands⟩

end Loader

end RelaxSchema
