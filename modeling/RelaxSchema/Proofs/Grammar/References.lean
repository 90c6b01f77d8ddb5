import RelaxSchema.Grammar.Flattening
import RelaxSchema.Proofs.Catalogue
import RelaxSchema.Proofs.Grammar.Expansion

/-!
# References

What it means to replace the references in some trees by what their definitions hold, said without
any record of the definitions that are being expanded. `Meets` says which nodes a walk comes to that
follows references, `Inlines` what the trees become.

* `Expansion.IsExpandable`: no reference that is met is unnamed or unregistered, no element is
  unnamed, and no definition that is met reaches itself;
* `Expansion.expandContent_eq_ok_iff_inlines`: expansion ends with the inlined trees, which are
  there exactly for trees that are expandable, and reports only definitions that reach themselves.

Of a definition that is met twice on one way it is known that it reaches itself. So a definition
that does not is always available where it is met, although each definition is taken away while it
is expanded (`exists_expandAll_resolve`).
-/

namespace RelaxSchema.Expansion

open RelaxSchema.Tree

/-! ### Walks -/

/-- Whether nodes of a name are replaced or dropped, whatever they hold. -/
def isLeaf (name : String) : Bool :=
  name = "element" || name = "ref" || name = "empty" || name = "notAllowed"

/-- A reference to a name. -/
def IsRefTo (target : String) (tree : Tree) : Prop :=
  tree.name = "ref" ∧ tree.attribute? "name" = some target

/-- A node among some trees or below them, with no element, no reference and nothing that is dropped
on the way. -/
inductive Sees : List Tree → Tree → Prop
  /-- One of the trees. -/
  | here {trees : List Tree} {tree : Tree} : tree ∈ trees → Sees trees tree
  /-- A node below one of them. -/
  | inside {trees : List Tree} {tree node : Tree} : tree ∈ trees → isLeaf tree.name = false →
      Sees tree.children node → Sees trees node

/-- A node that is met where each reference leads on to the body of its definition. -/
inductive Meets (bodies : Catalogue (List Tree)) : List Tree → Tree → Prop
  /-- A node that is seen without a reference on the way. -/
  | sees {trees : List Tree} {node : Tree} : Sees trees node → Meets bodies trees node
  /-- A node that is met from the body of a definition. -/
  | through {trees body : List Tree} {reference node : Tree} {target : String} :
      Sees trees reference → IsRefTo target reference → bodies.find? target = some body →
      Meets bodies body node → Meets bodies trees node

/-- A definition from which a reference to a name is met. -/
def Reaches (bodies : Catalogue (List Tree)) (name target : String) : Prop :=
  ∃ body, bodies.find? name = some body ∧ ∃ node, Meets bodies body node ∧ IsRefTo target node

/-- A node that can be replaced, if it is one that is replaced. -/
structure IsResolvable (bodies : Catalogue (List Tree)) (node : Tree) : Prop where
  /-- A reference has the name of a registered definition. -/
  registered : node.name = "ref" → ∃ target, node.attribute? "name" = some target ∧
    target ∈ bodies.names
  /-- An element has a name. -/
  named : node.name = "element" → ∃ name, node.attribute? "name" = some name
  /-- The definition that a reference names does not reach itself. -/
  acyclic : ∀ target, IsRefTo target node → ¬ Reaches bodies target target

/-- Trees from which only nodes are met that can be replaced. -/
def IsExpandable (bodies : Catalogue (List Tree)) (trees : List Tree) : Prop :=
  ∀ node, Meets bodies trees node → IsResolvable bodies node

/-- `Inlines bodies trees blocks` says that the blocks are the trees with each reference replaced by
what the body of its definition becomes, each element reduced to its name, and what is empty
dropped. -/
inductive Inlines (bodies : Catalogue (List Tree)) : List Tree → List Tree → Prop
  /-- No tree becomes no block. -/
  | nil : Inlines bodies [] []
  /-- An element becomes a leaf. -/
  | element {tree : Tree} {name : String} {rest blocks : List Tree} : tree.name = "element" →
      tree.attribute? "name" = some name → Inlines bodies rest blocks →
      Inlines bodies (tree :: rest) (leaf name :: blocks)
  /-- A reference becomes what its definition holds. -/
  | ref {tree : Tree} {target : String} {body inlined rest blocks : List Tree} :
      IsRefTo target tree → bodies.find? target = some body → Inlines bodies body inlined →
        Inlines bodies rest blocks → Inlines bodies (tree :: rest) (inlined ++ blocks)
  /-- What is empty or not allowed is dropped. -/
  | dropped {tree : Tree} {rest blocks : List Tree} : tree.name = "empty" ∨
      tree.name = "notAllowed" → Inlines bodies rest blocks → Inlines bodies (tree :: rest) blocks
  /-- Any other node is kept, and its children are inlined. -/
  | kept {tree : Tree} {children rest blocks : List Tree} : isLeaf tree.name = false →
      Inlines bodies tree.children children → Inlines bodies rest blocks →
      Inlines bodies (tree :: rest) (⟨tree.name, tree.attributes, children⟩ :: blocks)

variable {bodies : Catalogue (List Tree)} {trees : List Tree}

theorem IsRefTo.unique {target target' : String} {tree : Tree} (h : IsRefTo target tree)
    (h' : IsRefTo target' tree) : target = target' :=
  Option.some.inj (h.2.symm.trans h'.2)

theorem Sees.of_subset {trees' : List Tree} {node : Tree} (hsubset : trees ⊆ trees')
    (h : Sees trees node) : Sees trees' node := by
  cases h with
  | here hmem => exact .here (hsubset hmem)
  | inside hmem hleaf hbelow => exact .inside (hsubset hmem) hleaf hbelow

/-- What is met is a node of the trees or of some body. -/
theorem Meets.mem_preorderAll {node : Tree} (h : Meets bodies trees node) :
    node ∈ preorderAll trees ∨ ∃ entry ∈ bodies.entries, node ∈ preorderAll entry.2 := by
  have hsees : ∀ {trees : List Tree} {node : Tree}, Sees trees node → node ∈ preorderAll trees := by
    intro trees node hnode
    induction hnode with
    | @here trees tree hmem =>
      exact Tree.mem_preorderAll.mpr ⟨tree, hmem, self_mem_preorder tree⟩
    | @inside trees tree node hmem _ _ ih =>
      exact Tree.mem_preorderAll.mpr ⟨tree, hmem, mem_preorder_of_below ih⟩
  induction h with
  | sees hnode => exact .inl (hsees hnode)
  | through _ _ hbody _ ih =>
    rcases ih with hmem | hmem
    · exact .inr ⟨_, Catalogue.mem_entries_of_find? hbody, hmem⟩
    · exact .inr hmem

/-! ### Nodes and their expansion -/

theorem isLeaf_eq_true_iff {name : String} : isLeaf name = true ↔
    name = "element" ∨ name = "ref" ∨ name = "empty" ∨ name = "notAllowed" := by
  simp [isLeaf, or_assoc]

/-- What becomes of a node is decided by its name. -/
theorem kind_cases (tree : Tree) : tree.name = "element" ∨ tree.name = "ref" ∨
    (tree.name = "empty" ∨ tree.name = "notAllowed") ∨ isLeaf tree.name = false := by
  cases hleaf : isLeaf tree.name with
  | false => simp
  | true => simpa using isLeaf_eq_true_iff.mp hleaf

section Step

variable {resolve : String → Except Error (List Tree)} {tree : Tree}

theorem expand_of_name_element (h : tree.name = "element") : expand resolve tree =
    match tree.attribute? "name" with
    | some name => .ok [leaf name]
    | none => .error (.grammar .elementWithoutName) := by
  obtain ⟨_, attributes, children⟩ := tree
  obtain rfl := h
  rw [expand]
  rfl

theorem expand_of_name_ref (h : tree.name = "ref") : expand resolve tree =
    match tree.attribute? "name" with
    | some target => resolve target
    | none => .error (.grammar .refWithoutName) := by
  obtain ⟨_, attributes, children⟩ := tree
  obtain rfl := h
  rw [expand]
  rfl

theorem expand_of_dropped (h : tree.name = "empty" ∨ tree.name = "notAllowed") :
    expand resolve tree = .ok [] := by
  obtain ⟨_, attributes, children⟩ := tree
  obtain rfl | rfl := h <;> rw [expand]

theorem expand_of_isLeaf_eq_false (h : isLeaf tree.name = false) : expand resolve tree =
    expandAll resolve tree.children >>= fun children =>
      .ok [⟨tree.name, tree.attributes, children⟩] := by
  obtain ⟨name, attributes, children⟩ := tree
  unfold expand
  split
  all_goals first | rfl | simp [isLeaf] at h

end Step

section Trees

variable {resolve : String → Except Error (List Tree)}

mutual

/-- If references become what they stand for, a node does so as well. -/
theorem inlines_of_expand (hresolve : ∀ target blocks, resolve target = .ok blocks →
    ∃ body, bodies.find? target = some body ∧ Inlines bodies body blocks) :
    ∀ (tree : Tree) {blocks rest others : List Tree}, expand resolve tree = .ok blocks →
      Inlines bodies rest others → Inlines bodies (tree :: rest) (blocks ++ others)
  | ⟨name, attributes, children⟩, blocks, rest, others, hexpand, hrest => by
    rcases kind_cases ⟨name, attributes, children⟩ with hname | hname | hname | hleaf
    · rw [expand_of_name_element hname] at hexpand
      split at hexpand
      · rename_i element hattribute
        obtain rfl := Except.ok.inj hexpand
        exact .element hname hattribute hrest
      · simp at hexpand
    · rw [expand_of_name_ref hname] at hexpand
      split at hexpand
      · rename_i target hattribute
        obtain ⟨body, hbody, hinlines⟩ := hresolve target blocks hexpand
        exact .ref ⟨hname, hattribute⟩ hbody hinlines hrest
      · simp at hexpand
    · rw [expand_of_dropped hname] at hexpand
      obtain rfl := Except.ok.inj hexpand
      exact .dropped hname hrest
    · rw [expand_of_isLeaf_eq_false hleaf] at hexpand
      obtain ⟨inlined, hinlined, hexpand⟩ := bind_eq_ok_iff.mp hexpand
      obtain rfl := Except.ok.inj hexpand
      exact .kept hleaf (inlines_of_expandAll hresolve children hinlined) hrest

theorem inlines_of_expandAll (hresolve : ∀ target blocks, resolve target = .ok blocks →
    ∃ body, bodies.find? target = some body ∧ Inlines bodies body blocks) :
    ∀ (trees : List Tree) {blocks : List Tree}, expandAll resolve trees = .ok blocks →
      Inlines bodies trees blocks
  | [], blocks, hexpand => by
    obtain rfl := Except.ok.inj hexpand
    exact .nil
  | tree :: rest, blocks, hexpand => by
    rw [expandAll] at hexpand
    obtain ⟨first, hfirst, hexpand⟩ := bind_eq_ok_iff.mp hexpand
    obtain ⟨others, hothers, hexpand⟩ := bind_eq_ok_iff.mp hexpand
    obtain rfl := Except.ok.inj hexpand
    exact inlines_of_expand hresolve tree hfirst (inlines_of_expandAll hresolve rest hothers)

end

/-- A node that is replaced can be: it has a name, and a reference can be resolved. -/
def IsReplaceable (resolve : String → Except Error (List Tree)) (node : Tree) : Prop :=
  (node.name = "element" → ∃ name, node.attribute? "name" = some name) ∧
    (node.name = "ref" → ∃ target, node.attribute? "name" = some target ∧
      ∃ blocks, resolve target = .ok blocks)

mutual

theorem exists_expand : ∀ (tree : Tree), (∀ node, Sees [tree] node → IsReplaceable resolve node) →
    ∃ blocks, expand resolve tree = .ok blocks
  | ⟨name, attributes, children⟩, h => by
    have hself := h _ (.here (List.mem_singleton_self _))
    rcases kind_cases ⟨name, attributes, children⟩ with hname | hname | hname | hleaf
    · obtain ⟨element, hattribute⟩ := hself.1 hname
      exact ⟨[leaf element], by rw [expand_of_name_element hname, hattribute]⟩
    · obtain ⟨target, hattribute, blocks, hblocks⟩ := hself.2 hname
      exact ⟨blocks, by rw [expand_of_name_ref hname, hattribute]; exact hblocks⟩
    · exact ⟨[], expand_of_dropped hname⟩
    · obtain ⟨blocks, hblocks⟩ := exists_expandAll children fun node hnode =>
        h node (.inside (List.mem_singleton_self _) hleaf hnode)
      exact ⟨_,
        by rw [expand_of_isLeaf_eq_false hleaf]; exact bind_eq_ok_iff.mpr ⟨blocks, hblocks, rfl⟩⟩

/-- Trees can be expanded if each node that is replaced can be. -/
theorem exists_expandAll : ∀ (trees : List Tree),
    (∀ node, Sees trees node → IsReplaceable resolve node) →
    ∃ blocks, expandAll resolve trees = .ok blocks
  | [], _ => ⟨[], rfl⟩
  | tree :: rest, h => by
    obtain ⟨first, hfirst⟩ := exists_expand tree fun node hnode =>
      h node (hnode.of_subset (by simp))
    obtain ⟨others, hothers⟩ := exists_expandAll rest fun node hnode =>
      h node (hnode.of_subset (by simp))
    exact ⟨first ++ others,
      bind_eq_ok_iff.mpr ⟨first, hfirst, bind_eq_ok_iff.mpr ⟨others, hothers, rfl⟩⟩⟩

end

mutual

theorem exists_ref_of_expand {name : String} : ∀ (tree : Tree),
    expand resolve tree = .error (.cyclicReference name) → ∃ node target, Sees [tree] node ∧
      IsRefTo target node ∧ resolve target = .error (.cyclicReference name)
  | ⟨label, attributes, children⟩, hexpand => by
    rcases kind_cases ⟨label, attributes, children⟩ with hname | hname | hname | hleaf
    · rw [expand_of_name_element hname] at hexpand
      split at hexpand <;> simp at hexpand
    · rw [expand_of_name_ref hname] at hexpand
      split at hexpand
      · rename_i target hattribute
        exact ⟨_, target, .here (List.mem_singleton_self _), ⟨hname, hattribute⟩, hexpand⟩
      · simp at hexpand
    · rw [expand_of_dropped hname] at hexpand
      simp at hexpand
    · rw [expand_of_isLeaf_eq_false hleaf] at hexpand
      rcases bind_eq_error_iff.mp hexpand with hchildren | ⟨_, _, hexpand⟩
      · obtain ⟨node, target, hnode, href, hresolve⟩ := exists_ref_of_expandAll children hchildren
        exact ⟨node, target, .inside (List.mem_singleton_self _) hleaf hnode, href, hresolve⟩
      · simp at hexpand

/-- A cycle is reported only where a reference is resolved. -/
theorem exists_ref_of_expandAll {name : String} : ∀ (trees : List Tree),
    expandAll resolve trees = .error (.cyclicReference name) → ∃ node target, Sees trees node ∧
      IsRefTo target node ∧ resolve target = .error (.cyclicReference name)
  | [], hexpand => by simp [expandAll] at hexpand
  | tree :: rest, hexpand => by
    rw [expandAll] at hexpand
    rcases bind_eq_error_iff.mp hexpand with hfirst | ⟨first, -, hexpand⟩
    · obtain ⟨node, target, hnode, href, hresolve⟩ := exists_ref_of_expand tree hfirst
      exact ⟨node, target, hnode.of_subset (by simp), href, hresolve⟩
    rcases bind_eq_error_iff.mp hexpand with hothers | ⟨others, -, hexpand⟩
    · obtain ⟨node, target, hnode, href, hresolve⟩ := exists_ref_of_expandAll rest hothers
      exact ⟨node, target, hnode.of_subset (by simp), href, hresolve⟩
    · simp at hexpand

end

end Trees

/-! ### Inlined trees -/

theorem meets_cons_iff {tree node : Tree} {rest : List Tree} : Meets bodies (tree :: rest) node ↔
    node = tree ∨ (isLeaf tree.name = false ∧ Meets bodies tree.children node) ∨
      (∃ target body, IsRefTo target tree ∧ bodies.find? target = some body ∧
        Meets bodies body node) ∨ Meets bodies rest node := by
  have hhead : tree ∈ tree :: rest := List.mem_cons_self
  have htail : rest ⊆ tree :: rest := List.subset_cons_self tree rest
  constructor
  · rintro (hsees | ⟨hsees, href, hbody, hnode⟩)
    · rcases hsees with hmem | ⟨hmem, hleaf, hbelow⟩
      · exact (List.mem_cons.mp hmem).imp_right fun hmem => .inr (.inr (.sees (.here hmem)))
      · rcases List.mem_cons.mp hmem with rfl | hmem
        · exact .inr (.inl ⟨hleaf, .sees hbelow⟩)
        · exact .inr (.inr (.inr (.sees (.inside hmem hleaf hbelow))))
    · rcases hsees with hmem | ⟨hmem, hleaf, hbelow⟩
      · rcases List.mem_cons.mp hmem with rfl | hmem
        · exact .inr (.inr (.inl ⟨_, _, href, hbody, hnode⟩))
        · exact .inr (.inr (.inr (.through (.here hmem) href hbody hnode)))
      · rcases List.mem_cons.mp hmem with rfl | hmem
        · exact .inr (.inl ⟨hleaf, .through hbelow href hbody hnode⟩)
        · exact .inr (.inr (.inr (.through (.inside hmem hleaf hbelow) href hbody hnode)))
  · rintro (rfl | ⟨hleaf, hsees | ⟨hsees, href, hbody, hnode⟩⟩ |
      ⟨target, body, href, hbody, hnode⟩ | hsees | ⟨hsees, href, hbody, hnode⟩)
    · exact .sees (.here hhead)
    · exact .sees (.inside hhead hleaf hsees)
    · exact .through (.inside hhead hleaf hsees) href hbody hnode
    · exact .through (.here hhead) href hbody hnode
    · exact .sees (hsees.of_subset htail)
    · exact .through (hsees.of_subset htail) href hbody hnode

theorem not_meets_nil {node : Tree} : ¬ Meets bodies [] node := by
  rintro (hsees | ⟨hsees, -, -, -⟩) <;> cases hsees <;> contradiction

section Inversion

variable {tree : Tree} {rest blocks : List Tree}

theorem Inlines.of_element (h : Inlines bodies (tree :: rest) blocks)
    (hname : tree.name = "element") :
    ∃ name others, tree.attribute? "name" = some name ∧ Inlines bodies rest others ∧
      blocks = leaf name :: others := by
  cases h with
  | element _ hattribute hrest => exact ⟨_, _, hattribute, hrest, rfl⟩
  | ref href => simp [href.1] at hname
  | dropped hdropped => simp [hname] at hdropped
  | kept hleaf => simp [hname, isLeaf] at hleaf

theorem Inlines.of_ref {target : String} (h : Inlines bodies (tree :: rest) blocks)
    (href : IsRefTo target tree) : ∃ body inlined others, bodies.find? target = some body ∧
      Inlines bodies body inlined ∧ Inlines bodies rest others ∧ blocks = inlined ++ others := by
  cases h with
  | element hname => simp [href.1] at hname
  | ref href' hbody hinlined hrest =>
    obtain rfl := href.unique href'
    exact ⟨_, _, _, hbody, hinlined, hrest, rfl⟩
  | dropped hdropped => simp [href.1] at hdropped
  | kept hleaf => simp [href.1, isLeaf] at hleaf

theorem Inlines.of_dropped (h : Inlines bodies (tree :: rest) blocks)
    (hdropped : tree.name = "empty" ∨ tree.name = "notAllowed") : Inlines bodies rest blocks := by
  cases h with
  | element hname => simp [hname] at hdropped
  | ref href => simp [href.1] at hdropped
  | dropped _ hrest => exact hrest
  | kept hleaf => rcases hdropped with hname | hname <;> simp [hname, isLeaf] at hleaf

theorem Inlines.of_kept (h : Inlines bodies (tree :: rest) blocks)
    (hleaf : isLeaf tree.name = false) :
    ∃ children others, Inlines bodies tree.children children ∧ Inlines bodies rest others ∧
      blocks = ⟨tree.name, tree.attributes, children⟩ :: others := by
  cases h with
  | element hname => simp [hname, isLeaf] at hleaf
  | ref href => simp [href.1, isLeaf] at hleaf
  | dropped hdropped => rcases hdropped with hname | hname <;> simp [hname, isLeaf] at hleaf
  | kept _ hchildren hrest => exact ⟨_, _, hchildren, hrest, rfl⟩

end Inversion

/-- Trees can be inlined in one way only. -/
theorem Inlines.unique {blocks others : List Tree} (h : Inlines bodies trees blocks)
    (h' : Inlines bodies trees others) : blocks = others := by
  induction h generalizing others with
  | nil =>
    cases h'
    rfl
  | element hname hattribute _ ih =>
    obtain ⟨name', others, hattribute', hrest, rfl⟩ := h'.of_element hname
    rw [ih hrest, Option.some.inj (hattribute.symm.trans hattribute')]
  | ref href hbody _ _ ihbody ih =>
    obtain ⟨body', inlined', others, hbody', hinlined, hrest, rfl⟩ := h'.of_ref href
    obtain rfl := Option.some.inj (hbody.symm.trans hbody')
    rw [ihbody hinlined, ih hrest]
  | dropped hdropped _ ih => exact ih (h'.of_dropped hdropped)
  | kept hleaf _ _ ihchildren ih =>
    obtain ⟨children', others, hchildren, hrest, rfl⟩ := h'.of_kept hleaf
    rw [ihchildren hchildren, ih hrest]

/-- A node that is no reference can be replaced if it has a name where it needs one. -/
theorem isResolvable_of_name_ne {node : Tree} (href : node.name ≠ "ref")
    (hnamed : node.name = "element" → ∃ name, node.attribute? "name" = some name) :
    IsResolvable bodies node :=
  ⟨fun hname => absurd hname href, hnamed, fun _ hself => absurd hself.1 href⟩

/-- Nothing is met through a node that is replaced or dropped but for a reference. -/
theorem Meets.eq_or_of_cons {tree node : Tree} {rest : List Tree}
    (h : Meets bodies (tree :: rest) node) (hleaf : isLeaf tree.name = true)
    (href : tree.name ≠ "ref") :
    node = tree ∨ Meets bodies rest node := by
  rcases meets_cons_iff.mp h with hsame | ⟨hinner, -⟩ | ⟨_, _, hself, -⟩ | hrest
  · exact .inl hsame
  · simp [hleaf] at hinner
  · exact absurd hself.1 href
  · exact .inr hrest

/-- Trees that can be inlined are expandable. A definition that reached itself would hold a
reference to itself among the nodes that are replaced in its own body. -/
theorem Inlines.isExpandable {blocks : List Tree} (h : Inlines bodies trees blocks) :
    IsExpandable bodies trees := by
  induction h with
  | nil => exact fun node hnode => absurd hnode not_meets_nil
  | @element tree name rest blocks hname hattribute _ ih =>
    intro node hnode
    have href : tree.name ≠ "ref" := by simp [hname]
    rcases hnode.eq_or_of_cons (by simp [hname, isLeaf]) href with rfl | hrest
    · exact isResolvable_of_name_ne href fun _ => ⟨name, hattribute⟩
    · exact ih node hrest
  | @ref tree target body inlined rest blocks href hbody _ _ ihbody ih =>
    intro node hnode
    rcases meets_cons_iff.mp hnode with rfl | ⟨hleaf, -⟩ | ⟨_, _, href', hbody', hnode⟩ | hrest
    · refine ⟨fun _ => ⟨target, href.2, Catalogue.mem_names_iff.mpr ⟨body, hbody⟩⟩,
        fun hname => by simp [href.1] at hname, ?_⟩
      intro target' href' hreaches
      obtain rfl := href.unique href'
      obtain ⟨body', hbody', inner, hinner, hself⟩ := hreaches
      obtain rfl := Option.some.inj (hbody.symm.trans hbody')
      exact (ihbody inner hinner).acyclic target hself ⟨body, hbody, inner, hinner, hself⟩
    · simp [href.1, isLeaf] at hleaf
    · obtain rfl := href.unique href'
      obtain rfl := Option.some.inj (hbody.symm.trans hbody')
      exact ihbody node hnode
    · exact ih node hrest
  | @dropped tree rest blocks hdropped _ ih =>
    intro node hnode
    have href : tree.name ≠ "ref" := by rcases hdropped with hname | hname <;> simp [hname]
    rcases hnode.eq_or_of_cons (isLeaf_eq_true_iff.mpr (.inr (.inr hdropped))) href with rfl | hrest
    · exact isResolvable_of_name_ne href fun hname => by simp [hname] at hdropped
    · exact ih node hrest
  | @kept tree children rest blocks hleaf _ _ ihchildren ih =>
    intro node hnode
    have hself : ∀ name, isLeaf name = true → tree.name ≠ name := by
      rintro name hname rfl
      simp [hleaf] at hname
    rcases meets_cons_iff.mp hnode with rfl | ⟨-, hchildren⟩ | ⟨_, _, href, -⟩ | hrest
    · exact isResolvable_of_name_ne (hself "ref" rfl) fun hname =>
        absurd hname (hself "element" rfl)
    · exact ihchildren node hchildren
    · exact absurd href.1 (hself "ref" rfl)
    · exact ih node hrest

/-! ### Definitions that are left -/

theorem lookup_without_of_ne {name other : String} (hne : other ≠ name) :
    ∀ available : List (String × List Tree),
      (without name available).lookup other = available.lookup other
  | [] => rfl
  | (key, body) :: rest => by
    have ih := lookup_without_of_ne hne rest
    rw [without] at ih ⊢
    by_cases hkey : key = name
    · have hother : (other == key) = false := by simpa [hkey] using hne
      rw [List.filter_cons_of_neg (by simpa using hkey), ih, List.lookup_cons, hother]
    · rw [List.filter_cons_of_pos (by simpa using hkey), List.lookup_cons, List.lookup_cons, ih]

theorem lookup_without_self (name : String) (available : List (String × List Tree)) :
    (without name available).lookup name = none := by
  refine lookup_eq_none_of_notMem fun hmem => ?_
  obtain ⟨⟨_, body⟩, hentry, rfl⟩ := List.mem_map.mp hmem
  simpa using (List.mem_filter.mp hentry).2

/-- References are resolved alike where the same bodies are found, in whatever order they are
kept. -/
theorem resolve_congr {registered registered' : List String}
    {available available' : List (String × List Tree)}
    (hregistered : ∀ name, name ∈ registered' ↔ name ∈ registered)
    (h : ∀ name, available'.lookup name = available.lookup name) :
    resolve registered' available' = resolve registered available := by
  induction hlength : available.length using Nat.strongRecOn generalizing available available' with
  | ind length ih =>
    funext target
    rw [resolve, resolve, h target]
    split
    · rename_i body hfound
      have hrest : ∀ name, (without target available').lookup name =
          (without target available).lookup name := by
        intro name
        by_cases hname : name = target
        · rw [hname, lookup_without_self, lookup_without_self]
        · rw [lookup_without_of_ne hname, lookup_without_of_ne hname, h name]
      rw [ih _ (hlength ▸ length_without_lt hfound) hrest rfl]
    · simp only [hregistered]

theorem expandBlock_congr {bodies bodies' : Catalogue (List Tree)}
    (h : ∀ name, bodies'.find? name = bodies.find? name) :
    expandBlock bodies' = expandBlock bodies := by
  have hnames : ∀ name, name ∈ bodies'.names ↔ name ∈ bodies.names := by
    intro name
    rw [Catalogue.mem_names_iff, Catalogue.mem_names_iff, h]
  funext block
  rw [expandBlock, expandBlock, resolve_congr hnames h]

/-- The definitions that are left are among the registered ones. -/
def AreLeft (bodies : Catalogue (List Tree)) (available : List (String × List Tree)) : Prop :=
  ∀ name body, available.lookup name = some body → bodies.find? name = some body

theorem AreLeft.without {available : List (String × List Tree)} (h : AreLeft bodies available)
    (name : String) : AreLeft bodies (without name available) :=
  fun other body hother => h other body (lookup_without hother)

variable {registered : List String}

/-- What a reference is resolved to is what the body of its definition becomes. -/
theorem inlines_of_resolve {available : List (String × List Tree)} (h : AreLeft bodies available) :
    ∀ target blocks, resolve registered available target = .ok blocks →
      ∃ body, bodies.find? target = some body ∧ Inlines bodies body blocks := by
  induction hlength : available.length using Nat.strongRecOn generalizing available with
  | ind length ih =>
    intro target blocks hresolve
    rw [resolve] at hresolve
    split at hresolve
    · rename_i body hfound
      have hrest := ih _ (hlength ▸ length_without_lt hfound) (h.without target) rfl
      exact ⟨body, h target body hfound, inlines_of_expandAll hrest body hresolve⟩
    · split at hresolve <;> simp at hresolve

/-- Trees can be expanded if they are expandable and the definitions they meet are all left. These
are still left when one of them is taken away while its body is expanded, since it does not reach
itself. -/
theorem exists_expandAll_resolve {available : List (String × List Tree)}
    (hexpandable : IsExpandable bodies trees)
    (hleft : ∀ node target, Meets bodies trees node → IsRefTo target node →
      available.lookup target = bodies.find? target) :
    ∃ blocks, expandAll (resolve registered available) trees = .ok blocks := by
  induction hlength : available.length using Nat.strongRecOn generalizing available trees with
  | ind length ih =>
    refine exists_expandAll trees fun node hsees => ⟨(hexpandable node (.sees hsees)).named, ?_⟩
    intro hname
    obtain ⟨target, hattribute, hregistered⟩ := (hexpandable node (.sees hsees)).registered hname
    have href : IsRefTo target node := ⟨hname, hattribute⟩
    obtain ⟨body, hbody⟩ := Catalogue.mem_names_iff.mp hregistered
    have hfound : available.lookup target = some body :=
      (hleft node target (.sees hsees) href).trans hbody
    have hmeets : ∀ inner, Meets bodies body inner → Meets bodies trees inner :=
      fun inner hinner => .through hsees href hbody hinner
    have hrest : ∀ inner other, Meets bodies body inner → IsRefTo other inner →
        (without target available).lookup other = bodies.find? other := by
      intro inner other hinner hother
      have hne : other ≠ target := by
        rintro rfl
        exact (hexpandable node (.sees hsees)).acyclic other href
          ⟨body, hbody, inner, hinner, hother⟩
      rw [lookup_without_of_ne hne]
      exact hleft inner other (hmeets inner hinner) hother
    obtain ⟨blocks, hblocks⟩ := ih _ (hlength ▸ length_without_lt hfound)
      (fun inner hinner => hexpandable inner (hmeets inner hinner)) hrest rfl
    refine ⟨target, hattribute, blocks, ?_⟩
    rw [resolve]
    split
    · rename_i body' hfound'
      obtain rfl := Option.some.inj (hfound.symm.trans hfound')
      exact hblocks
    · rename_i habsent
      simp [hfound] at habsent

/-- A definition that is reported to be cyclic reaches itself. Whatever is met is met from the body
of each definition that has been taken away. -/
theorem reaches_of_expandAll_resolve {available : List (String × List Tree)} {name : String}
    (hsubset : AreLeft bodies available)
    (htaken : ∀ taken ∈ bodies.names, available.lookup taken = none → ∃ body,
      bodies.find? taken = some body ∧ ∀ node, Meets bodies trees node → Meets bodies body node)
    (hexpand : expandAll (resolve bodies.names available) trees = .error (.cyclicReference name)) :
    Reaches bodies name name := by
  induction hlength : available.length using Nat.strongRecOn generalizing available trees with
  | ind length ih =>
    obtain ⟨node, target, hsees, href, hresolve⟩ := exists_ref_of_expandAll trees hexpand
    rw [resolve] at hresolve
    split at hresolve
    · rename_i body hfound
      have hbody : bodies.find? target = some body := hsubset target body hfound
      refine ih _ (hlength ▸ length_without_lt hfound) (hsubset.without target) ?_ hresolve rfl
      intro taken hmem habsent
      by_cases hsame : taken = target
      · exact ⟨body, hsame ▸ hbody, fun _ hinner => hinner⟩
      · rw [lookup_without_of_ne hsame] at habsent
        obtain ⟨outer, houter, hmeets⟩ := htaken taken hmem habsent
        exact ⟨outer, houter, fun inner hinner => hmeets inner (.through hsees href hbody hinner)⟩
    · rename_i habsent
      split at hresolve
      · rename_i hmem
        obtain rfl : target = name := by simpa using hresolve
        obtain ⟨body, hbody, hmeets⟩ := htaken target hmem habsent
        exact ⟨body, hbody, node, hmeets node (.sees hsees), href⟩
      · simp at hresolve

/-! ### The content of an element -/

theorem expandContent_eq (content : List Tree) : Definitions.expandContent bodies content =
    expandAll (resolve bodies.names bodies.entries) content := by
  induction content with
  | nil => rfl
  | cons tree rest ih =>
    rw [expandAll, ← ih, Definitions.expandContent, Definitions.expandContent,
      List.mapM_cons, expandBlock]
    cases expand (resolve bodies.names bodies.entries) tree with
    | error error => rfl
    | ok first => cases rest.mapM (expandBlock bodies) <;> rfl

theorem inlines_of_expandContent {content blocks : List Tree}
    (h : Definitions.expandContent bodies content = .ok blocks) :
    Inlines bodies content blocks := by
  rw [expandContent_eq] at h
  exact inlines_of_expandAll (inlines_of_resolve fun _ _ hbody => hbody) content h

/-- **Expansion is inlining, and fails exactly on cycles and on names that are missing.** -/
theorem expandContent_eq_ok_iff_inlines (bodies : Catalogue (List Tree)) (content : List Tree) :
    ((∃ blocks, Definitions.expandContent bodies content = .ok blocks) ↔
      IsExpandable bodies content) ∧
    (∀ blocks, Definitions.expandContent bodies content = .ok blocks ↔
      Inlines bodies content blocks) ∧
    (∀ name, Definitions.expandContent bodies content = .error (.cyclicReference name) →
      Reaches bodies name name) := by
  rw [expandContent_eq]
  have hinlines : ∀ blocks, expandAll (resolve bodies.names bodies.entries) content = .ok blocks →
      Inlines bodies content blocks := fun blocks hblocks =>
    inlines_of_expandContent ((expandContent_eq content).trans hblocks)
  have hexists : IsExpandable bodies content →
      ∃ blocks, expandAll (resolve bodies.names bodies.entries) content = .ok blocks :=
    fun hexpandable => exists_expandAll_resolve hexpandable fun _ _ _ _ => rfl
  refine ⟨⟨fun ⟨blocks, hblocks⟩ => (hinlines blocks hblocks).isExpandable, hexists⟩,
    fun blocks => ⟨hinlines blocks, fun h => ?_⟩, fun name hcyclic => ?_⟩
  · obtain ⟨others, hothers⟩ := hexists h.isExpandable
    rw [hothers, (hinlines others hothers).unique h]
  · refine reaches_of_expandAll_resolve (fun _ _ hbody => hbody)
      (fun taken hmem habsent => ?_) hcyclic
    obtain ⟨body, hbody⟩ := Catalogue.mem_names_iff.mp hmem
    exact absurd (hbody.symm.trans habsent) (Option.some_ne_none body)

/-- A definition that is used twice is inlined twice, and one that holds a reference to itself below
another node is found out. -/
theorem expandContent_twice_and_cyclic :
    let reference (name : String) : Tree := ⟨"ref", .ofList [("name", name)], []⟩
    let bodies : Catalogue (List Tree) := .ofList [("twice", [reference "once", reference "once"]),
      ("once", [.plain "text" []]), ("loop", [.plain "group" [reference "loop"]])]
    Inlines bodies [reference "twice"] [.plain "text" [], .plain "text" []] ∧
      Reaches bodies "loop" "loop" := by
  intro reference bodies
  have htwice : Definitions.expandContent bodies [reference "twice"] =
      .ok [.plain "text" [], .plain "text" []] := by cbv
  have hloop : Definitions.expandContent bodies [reference "loop"] =
      .error (.cyclicReference "loop") := by cbv
  exact ⟨((expandContent_eq_ok_iff_inlines bodies [reference "twice"]).2.1 _).mp htwice,
    (expandContent_eq_ok_iff_inlines bodies [reference "loop"]).2.2 "loop" hloop⟩

end RelaxSchema.Expansion
