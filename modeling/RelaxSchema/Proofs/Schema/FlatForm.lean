import RelaxSchema.Proofs.Grammar.Origin
import RelaxSchema.Proofs.Schema.Division

/-!
# The form of flat grammars

What the later stages may rely on in the tree of a flat grammar, whatever grammar it was made from.

* `Definitions.isFlat_flatten`: the root has one node for each name, made from the last definition
  of that element which is not overridden, and no reference is left below it;
* `Definitions.isFlat_flatten_not_last`: overridden definitions do not count for which one is the
  last.

The names come from the order in which elements are entered (`Definitions.latest_perm_foldl_enter`).
The content comes from the expansion, of which the normal form keeps what matters here: it makes its
nodes of those that are there (`NormalForm.isMadeOf_normalise`).
-/

namespace RelaxSchema

open List RelaxSchema.Tree

/-! ### Expanded content -/

namespace Tree

/-- The names of the nodes that expansion replaces or drops. -/
def expandedNames : List String := ["ref", "empty", "notAllowed"]

/-- Trees without references, in which an element is a leaf that carries only its name. -/
def AreExpanded (trees : List Tree) : Prop :=
  ∀ node ∈ preorderAll trees, node.name ∉ expandedNames ∧
    (node.name = "element" → ∃ name, node = Expansion.leaf name)

theorem AreExpanded.of_subset {trees trees' : List Tree} (h : AreExpanded trees)
    (hsubset : trees' ⊆ trees) : AreExpanded trees' :=
  fun node hnode => h node (preorderAll_subset hsubset hnode)

theorem AreExpanded.of_isMadeOf {trees trees' : List Tree} (h : AreExpanded trees)
    (hmade : NormalForm.IsMadeOf trees trees') : AreExpanded trees' := by
  intro node hnode
  obtain ⟨source, hsource, hname, hattributes, hleaf⟩ := hmade node hnode
  obtain ⟨hkept, helement⟩ := h source hsource
  refine ⟨hname ▸ hkept, fun h => ?_⟩
  -- A leaf is told by its label and by having no children.
  obtain ⟨name, rfl⟩ := helement (hname ▸ h)
  obtain ⟨_, attributes, children⟩ := node
  obtain rfl : attributes = _ := hattributes
  obtain rfl : children = [] := hleaf rfl
  exact ⟨name, congrArg (Tree.mk · _ _) h⟩

theorem areExpanded_cons {tree : Tree} {rest : List Tree} :
    AreExpanded (tree :: rest) ↔ AreExpanded [tree] ∧ AreExpanded rest := by
  simp only [AreExpanded, preorderAll, append_nil, forall_mem_append]

/-- A container of expanded content. -/
theorem AreExpanded.plain {trees : List Tree} (h : AreExpanded trees) {name : String}
    (hname : name ∉ "element" :: expandedNames) : AreExpanded [.plain name trees] := by
  rw [mem_cons, not_or] at hname
  intro node hnode
  rw [mem_preorderAll_singleton, preorder_eq, mem_cons] at hnode
  rcases hnode with rfl | hnode
  · exact ⟨hname.2, fun helement => absurd helement hname.1⟩
  · exact h node hnode

end Tree

theorem Definitions.areExpanded_expandContent {bodies : Catalogue (List Tree)}
    {content blocks : List Tree} (h : expandContent bodies content = .ok blocks) :
    AreExpanded blocks := by
  intro node hnode
  rcases (Expansion.inlines_of_expandContent h).forall_preorderAll node hnode with
    hkept | ⟨name, rfl⟩
  · have hnames := mt Expansion.isLeaf_eq_true_iff.mpr (hkept ▸ Bool.false_ne_true)
    simp only [not_or] at hnames
    exact ⟨by simp [expandedNames, hnames], fun helement => absurd helement hnames.1⟩
  · have hkept : "element" ∉ expandedNames := by decide
    exact ⟨hkept, fun _ => ⟨name, rfl⟩⟩

/-! ### Nodes of elements -/

/-- What the node of a name looks like, and what it is made from. -/
structure Tree.IsEntry (definitions : Definitions) (key : String) (tree : Tree) : Prop where
  /-- The node is an element. -/
  name_eq : tree.name = "element"
  /-- It carries the name. -/
  attribute?_eq : tree.attribute? "name" = some key
  /-- It is a placeholder for the last definition, or has its expanded blocks in two containers. -/
  exists_definition : ∃ element, definitions.elementOf? key = some element ∧
    if key ∈ definitions.toTree.markedNames "not-implemented" then tree.children = []
    else ∃ blocks, Definitions.expandContent definitions.bodies element.children = .ok blocks ∧
      tree.children = [.plain "attributes" (blocks.filter fun block => block.mentions "attribute"),
        .plain "children"
        (NormalForm.normalise (blocks.filter fun block => !block.mentions "attribute"))]
  /-- No reference is left in it, and the elements in it are leaves. -/
  areExpanded : AreExpanded tree.children
  /-- Each block in the first container is or holds an attribute. -/
  mentions_attribute : ∀ container ∈ tree.children, container.name = "attributes" →
    ∀ block ∈ container.children, block.mentions "attribute" = true
  /-- No attribute is in the second one. -/
  name_ne_attribute : ∀ container ∈ tree.children, container.name = "children" →
    ∀ node ∈ container.descendants, node.name ≠ "attribute"

namespace Definitions

variable {definitions : Definitions} {key : String}

/-- The blocks that are set aside for the normal form have no attributes, and it makes none. -/
theorem name_ne_attribute_of_mem_divide {blocks : List Tree} :
    ∀ node ∈ preorderAll (divide blocks).children, node.name ≠ "attribute" := by
  intro node hnode
  obtain ⟨source, hsource, hname, -⟩ := NormalForm.isMadeOf_normalise _ node hnode
  obtain ⟨block, hblock, hsource⟩ := mem_preorderAll.mp hsource
  have hmentions : block.mentions "attribute" = false := by simpa using (mem_filter.mp hblock).2
  rw [hname]
  exact name_ne_of_mentions hmentions source hsource

theorem areExpanded_containers {blocks : List Tree} (h : AreExpanded blocks) :
    AreExpanded [.plain "attributes" (divide blocks).attributes,
      .plain "children" (divide blocks).children] := by
  have hattributes : AreExpanded (divide blocks).attributes := h.of_subset (filter_subset_self _)
  have hchildren : AreExpanded (divide blocks).children :=
    (h.of_subset (filter_subset_self _)).of_isMadeOf (NormalForm.isMadeOf_normalise _)
  exact areExpanded_cons.mpr ⟨hattributes.plain (by decide), hchildren.plain (by decide)⟩

end Definitions

theorem FlatElement.attribute?_toTree (element : FlatElement) :
    element.toTree.attribute? "name" = some element.name := by
  obtain ⟨name, type, body⟩ := element
  show Catalogue.find? (Catalogue.ofList _) "name" = some name
  cases type <;> simp [Catalogue.ofList, Catalogue.find?_insert]

namespace Definitions

variable {definitions : Definitions} {key : String}

/-- **The node of a name** is made from the last definition of the element. -/
theorem isEntry_toTree {element : Tree} {made : FlatElement}
    (helement : definitions.elementOf? key = some element)
    (hmade : flattenElement definitions.bodies
      (definitions.toTree.markedNames "not-implemented") element = .ok made)
    (type : Option String) :
    IsEntry definitions key { made with type := type }.toTree := by
  obtain ⟨-, hname⟩ := elementOf?_eq_some helement
  by_cases himplemented : key ∈ definitions.toTree.markedNames "not-implemented"
  · simp only [flattenElement, hname, if_pos himplemented, Except.ok.injEq] at hmade
    subst hmade
    exact ⟨rfl, FlatElement.attribute?_toTree _, ⟨element, helement, (if_pos himplemented).mpr rfl⟩,
      fun _ hnode => absurd hnode not_mem_nil, fun _ hcontainer => absurd hcontainer not_mem_nil,
      fun _ hcontainer => absurd hcontainer not_mem_nil⟩
  · obtain ⟨blocks, hblocks, rfl⟩ := (flattenElement_eq_ok_iff hname himplemented).mp hmade
    refine ⟨rfl, FlatElement.attribute?_toTree _,
      ⟨element, helement, (if_neg himplemented).mpr ⟨blocks, hblocks, rfl⟩⟩,
      areExpanded_containers (areExpanded_expandContent hblocks), ?_, ?_⟩
    · intro container hcontainer hname
      rcases mem_pair.mp hcontainer with rfl | rfl
      · exact fun block hblock => (mem_filter.mp hblock).2
      · simp [plain] at hname
    · intro container hcontainer hname
      rcases mem_pair.mp hcontainer with rfl | rfl
      · simp [plain] at hname
      · exact name_ne_attribute_of_mem_divide

/-! ### Names -/

/-- The names in the order of the last definitions are those in the order of the first ones. -/
theorem latest_perm_enter {entries : Catalogue FlatElement × List String}
    (h : entries.2 ~ entries.1.names) (element : FlatElement) :
    (enter entries element).2 ~ (enter entries element).1.names := by
  show entries.2.erase element.name ++ [element.name] ~
    (entries.1.insert element.name element).names
  rw [Catalogue.names_insert]
  split
  · rename_i hknown
    -- A name that is known moves to the end.
    calc entries.2.erase element.name ++ [element.name]
      _ ~ element.name :: entries.2.erase element.name := perm_append_singleton _ _
      _ ~ entries.2 := (perm_cons_erase (h.mem_iff.mpr hknown)).symm
      _ ~ entries.1.names := h
  · rename_i hnew
    rw [erase_of_not_mem (mt h.mem_iff.mp hnew)]
    exact h.append_right _

theorem latest_perm_foldl_enter (elements : List FlatElement) :
    (elements.foldl enter (.empty, [])).2 ~ (elements.foldl enter (.empty, [])).1.names := by
  induction elements using reverseRecOn with
  | nil => exact .refl _
  | append_singleton elements element ih =>
    rw [foldl_append]
    exact latest_perm_enter ih element

/-- Types are only declared for names that are there. -/
theorem names_foldlM_assignType {declarations : List Tree} {entries all : Catalogue FlatElement}
    (h : declarations.foldlM assignType entries = .ok all) : all.names = entries.names := by
  refine foldlM_induction (P := fun next => Catalogue.names next = entries.names)
    (fun next declaration _ last hnext hlast => ?_) rfl h
  obtain ⟨name, type, element, -, -, helement, rfl⟩ := assignType_eq_ok_iff.mp hlast
  rw [Catalogue.names_insert, if_pos (Catalogue.mem_names_iff.mpr ⟨element, helement⟩), hnext]

theorem latest_perm_names {flat : FlatGrammar} (h : definitions.flatten = .ok flat) :
    flat.latest ~ flat.elements.names := by
  obtain ⟨flats, -, hrest⟩ := bind_eq_ok_iff.mp h
  obtain ⟨entries, hentries, hrest⟩ := bind_eq_ok_iff.mp hrest
  obtain ⟨start, -, hrest⟩ := bind_eq_ok_iff.mp hrest
  obtain rfl := Except.ok.inj hrest
  rw [names_foldlM_assignType hentries]
  exact latest_perm_foldl_enter flats

end Definitions

/-! ### Flat grammars -/

/-- The form of the flat grammar that is made from some definitions. -/
structure FlatGrammar.IsFlat (definitions : Definitions) (flat : FlatGrammar) : Prop where
  /-- The children of the root are the elements. -/
  children_perm : flat.toTree.children ~ flat.elements.values.map FlatElement.toTree
  /-- Each name has one of them, and it carries the name. -/
  names_perm : (flat.toTree.children.map fun node => node.attribute? "name") ~
    flat.elements.names.map some
  /-- Each is made from the last definition of the element of its name. -/
  isEntry : ∀ key element, flat.elements.find? key = some element →
    IsEntry definitions key element.toTree
  /-- No reference is left below the root, and nothing that expansion drops. -/
  notMem_expandedNames : ∀ node ∈ flat.toTree.descendants, node.name ∉ expandedNames

namespace Definitions

variable {definitions : Definitions}

/-- **Every flat grammar has the form that later stages rely on.** The children of the root are
exactly the elements, each name with one node that carries it. The node is made from the last
definition of that element, where removed names and definitions that are overridden are left out: it
is a placeholder without children if the name is marked as not implemented, and else has exactly two
containers. The first holds the expanded blocks that are or hold an attribute, the second the normal
form of the others, in which no attribute is. Below the root there is no reference and nothing that
expansion drops, and an element below another one is a leaf that carries only its name. -/
theorem isFlat_flatten {flat : FlatGrammar} (h : definitions.flatten = .ok flat) :
    flat.IsFlat definitions.stripRemoved := by
  have hperm : flat.toTree.children ~ flat.elements.values.map FlatElement.toTree := by
    rw [← Catalogue.filterMap_find?_names]
    exact ((latest_perm_names h).filterMap _).map _
  have hentry : ∀ key element, flat.elements.find? key = some element →
      IsEntry definitions.stripRemoved key element.toTree := by
    intro key entry hentry
    obtain ⟨element, made, type, helement, hmade, rfl⟩ := exists_of_find?_flatten h hentry
    exact isEntry_toTree helement hmade type
  refine ⟨hperm, ?_, hentry, fun node hnode => ?_⟩
  · refine (hperm.map _).trans (.of_eq ?_)
    rw [Catalogue.values, Catalogue.names, map_map, map_map, map_map]
    refine map_congr_left fun entry hmem => ?_
    rw [Function.comp_apply, Function.comp_apply, FlatElement.attribute?_toTree,
      ← isNamed_flatten h entry hmem]
    rfl
  · obtain ⟨tree, htree, hnode⟩ := mem_preorderAll.mp hnode
    obtain ⟨element, helement, rfl⟩ := mem_map.mp (hperm.subset htree)
    obtain ⟨⟨key, _⟩, hkey, rfl⟩ := mem_map.mp helement
    have hflat := hentry key _ (Catalogue.find?_of_mem hkey)
    rw [preorder_eq, mem_cons] at hnode
    rcases hnode with rfl | hnode
    · rw [hflat.name_eq]
      decide
    · exact (hflat.areExpanded node hnode).1

/-- A name that is defined twice has one node, in the place of its last definition; a reference to
nothing but what is dropped leaves nothing, and a placeholder is not looked into. -/
theorem isFlat_flatten_redefined :
    let named (name value : String) (children : List Tree) : Tree :=
      ⟨name, .ofList [("name", value)], children⟩
    let definitions : Definitions := ⟨[.plain "start" [named "ref" "a" []],
      named "define" "old" [named "element" "a" [.plain "text" []]],
      named "define" "b" [named "element" "b" [named "ref" "missing" []]],
      named "define" "a" [named "element" "a" [named "ref" "common" [],
        .plain "optional" [named "ref" "nothing" []],
        .plain "zeroOrMore" [.plain "choice" [named "element" "b" [.plain "text" []]]]]],
      named "define" "common" [.plain "optional" [named "attribute" "id" []]],
      named "define" "nothing" [.plain "notAllowed" []],
      named "not-implemented" "b" []],
      .ofList [("old", 0), ("b", 1), ("a", 2), ("common", 3), ("nothing", 4)]⟩
    ∃ flat, definitions.flatten = .ok flat ∧ flat.IsFlat definitions.stripRemoved ∧
      flat.elements.names = ["a", "b"] ∧
      flat.toTree.descendants.map Tree.name = ["element", "element", "attributes", "optional",
        "attribute", "children", "zeroOrMore", "element"] := by
  intro named definitions
  have hrun : (fun flat => (flat.elements.names, flat.toTree.descendants.map Tree.name)) <$>
      definitions.flatten =
        .ok (["a", "b"], ["element", "element", "attributes", "optional", "attribute",
        "children", "zeroOrMore", "element"]) := by cbv
  obtain ⟨flat, hflat, hnames⟩ := map_eq_ok_iff.mp hrun
  obtain ⟨hkeys, hnodes⟩ := Prod.mk.inj hnames
  exact ⟨flat, hflat, isFlat_flatten hflat, hkeys, hnodes⟩

/-- The last element of a name is not the one that counts, if the definition that it stands in is
overridden: here the second definition of `a` is the only one of an empty element. -/
theorem isFlat_flatten_not_last :
    let named (name value : String) (children : List Tree) : Tree :=
      ⟨name, .ofList [("name", value)], children⟩
    let grammar : Tree := .plain "grammar" [.plain "start" [named "ref" "a" []],
      named "define" "a" [named "element" "a" [.plain "text" []]],
      named "define" "b" [named "element" "a" []],
      named "define" "b" [.plain "empty" []]]
    ¬ ∀ definitions flat, collect grammar = .ok definitions → definitions.flatten = .ok flat →
      ∀ key element, ((elementsBelow false grammar.children).reverse.find? fun element =>
          element.attribute? "name" = some key) = some element →
        ∀ blocks, expandContent definitions.bodies element.children = .ok blocks →
          (flat.elements.find? key).map (fun entry => entry.toTree.children) =
            some [.plain "attributes" (divide blocks).attributes,
              .plain "children" (divide blocks).children] := by
  intro named grammar hlast
  let definitions : Definitions := ⟨grammar.children, .ofList [("a", 0), ("b", 2)]⟩
  have hcollect : collect grammar = .ok definitions := by cbv
  have hrun : (fun flat => ((flat.elements.find? "a").map fun entry =>
      entry.toTree.children.map fun container =>
        container.children.length)) <$> definitions.flatten = .ok (some [0, 1]) := by
    cbv
  obtain ⟨flat, hflat, hlengths⟩ := map_eq_ok_iff.mp hrun
  have helement : ((elementsBelow false grammar.children).reverse.find? fun element =>
      element.attribute? "name" = some "a") = some (named "element" "a" []) := by cbv
  have hblocks : expandContent definitions.bodies [] = .ok [] := by cbv
  have hentry := hlast definitions flat hcollect hflat "a" _ helement [] hblocks
  -- The text of the first definition is there, but the last one has none.
  have hempty := congrArg (Option.map (map fun container => container.children.length)) hentry
  rw [Option.map_map] at hempty
  cases hlengths.symm.trans hempty

end Definitions

end RelaxSchema
