import RelaxSchema.Proofs.Grammar.GrammarElement
import RelaxSchema.Proofs.Grammar.Reordering
import RelaxSchema.Proofs.Schema.Core

/-!
# Grammars in another order

* `Schema.compileTree_reordered`: the children of the grammar element may change places, as long as
  the definitions of one name keep their order. Where there is one start, and nothing is declared or
  defined twice, the schema has the same start and the same entries.

Both grammars are registered (`Definitions.exists_collect_reorders`), flattened
(`Definitions.exists_flatten_reorders`) and compiled (`Schema.exists_ofFlat_of_find?_eq`). At each
of the last two stages something is worked off in another order: the declarations of types, and the
elements. That makes no difference since no two of them are about the same name
(`exists_foldlM_of_perm`).
-/

namespace RelaxSchema

open List RelaxSchema.Tree

namespace Definitions

/-! ### Registration -/

section Registration

variable {definitions next last : Definitions} {tree : Tree} {trees : List Tree} {marker : String}

/-- The grammar with its children in another order is registered as well. -/
theorem exists_collect_reorders {grammar grammar' : Tree}
    (hperm : grammar'.children ~ grammar.children)
    (horder : ∀ name, grammar'.children.filter (isDefineOf name) =
      grammar.children.filter (isDefineOf name))
    (h : collect grammar = .ok definitions) :
    ∃ definitions', collect grammar' = .ok definitions' ∧
      AreMarked Reorders definitions definitions' := by
  have hnames := exists_name_of_foldlM_register h
  obtain ⟨definitions', h'⟩ := exists_foldlM_register_of_name
    (fun tree htree => hnames tree (hperm.mem_iff.mp htree)) ⟨[], .empty⟩
  obtain ⟨hnamed, hmarked⟩ := marked_foldlM_register areNamed_empty h
  obtain ⟨hnamed', hmarked'⟩ := marked_foldlM_register areNamed_empty h'
  refine ⟨definitions', h', hnamed, hnamed', ?_⟩
  rw [hmarked, hmarked']
  exact reorders_foldl_mark hnames hperm horder

/-- What is combined with a definition goes to its end. -/
theorem filter_preorderAll_extendDefine (hmarker : marker ≠ "define") (extra : List Tree)
    {position : Nat} (h : position < (trees.filter isDefine).length) :
    ((preorderAll (extendDefine extra position trees)).filter fun node => node.name = marker) ~
      ((preorderAll trees).filter fun node => node.name = marker) ++
        (preorderAll extra).filter fun node => node.name = marker := by
  induction trees generalizing position with
  | nil => simp at h
  | cons tree rest ih =>
    rw [preorderAll, filter_append]
    cases hdefine : isDefine tree with
    | false =>
      rw [filter_cons_of_neg (by simp [hdefine])] at h
      rw [extendDefine_skip hdefine, preorderAll, filter_append, append_assoc]
      exact (ih h).append_left _
    | true =>
      rw [filter_cons_of_pos hdefine, length_cons] at h
      cases position with
      | zero =>
        have hother : tree.name ≠ marker := fun hsame =>
          hmarker (hsame.symm.trans (isDefine_iff.mp hdefine))
        have hextended :=
          @filter_preorder { tree with children := tree.children ++ extra } marker hother
        rw [extendDefine_zero hdefine, preorderAll, filter_append, hextended,
          filter_preorder hother, preorderAll_append, filter_append, append_assoc, append_assoc]
        exact perm_append_comm.append_left _
      | succ position =>
        rw [extendDefine_succ hdefine, preorderAll, filter_append, append_assoc]
        exact (ih (Nat.lt_of_succ_lt_succ h)).append_left _

/-- Registration keeps all nodes but definitions. -/
theorem filter_preorderAll_register (hmarker : marker ≠ "define") (hplaced : definitions.ArePlaced)
    (h : register definitions tree = .ok next) :
    ((preorderAll next.children).filter fun node => node.name = marker) ~
      ((preorderAll definitions.children).filter fun node => node.name = marker) ++
        tree.preorder.filter fun node => node.name = marker := by
  have hlast : ∀ (children : List Tree) (tree : Tree),
      preorderAll (children ++ [tree]) = preorderAll children ++ tree.preorder := by
    intro children tree
    rw [preorderAll_append, preorderAll, preorderAll, append_nil]
  obtain ⟨-, rfl⟩ | ⟨name, target, hdefine, -, htarget, -, rfl⟩ | ⟨name, -, -, -, rfl⟩ :=
    register_cases h
  · rw [hlast, filter_append]
  · have hother : tree.name ≠ marker := fun hsame =>
      hmarker (hsame.symm.trans (isDefine_iff.mp hdefine))
    have hemptied := @filter_preorder { tree with children := [] } marker hother
    rw [hlast, filter_append, hemptied, filter_preorder hother, preorderAll, filter_nil, append_nil]
    exact filter_preorderAll_extendDefine hmarker tree.children (hplaced name target htarget)
  · rw [hlast, filter_append]

theorem filter_preorderAll_foldlM_register (hmarker : marker ≠ "define")
    (hplaced : definitions.ArePlaced) (h : trees.foldlM register definitions = .ok last) :
    ((preorderAll last.children).filter fun node => node.name = marker) ~
      ((preorderAll definitions.children).filter fun node => node.name = marker) ++
        (preorderAll trees).filter fun node => node.name = marker := by
  induction trees generalizing definitions with
  | nil =>
    obtain rfl := pure_eq_ok_iff.mp h
    exact Perm.of_eq (append_nil _).symm
  | cons tree rest ih =>
    rw [foldlM_cons] at h
    obtain ⟨next, hnext, hrest⟩ := bind_eq_ok_iff.mp h
    have hstep := filter_preorderAll_register hmarker hplaced hnext
    refine (ih (hplaced.register hnext) hrest).trans ((hstep.append_right _).trans (Perm.of_eq ?_))
    rw [append_assoc, ← filter_append, ← preorderAll]

/-- **The nodes of a grammar are found after registration, in some order.** -/
theorem findAll_collect {grammar : Tree} (hmarker : marker ≠ "define")
    (h : collect grammar = .ok definitions) :
    definitions.toTree.findAll marker ~ grammar.findAll marker :=
  filter_preorderAll_foldlM_register hmarker
    (fun name position hposition => by simp [Catalogue.find?, Catalogue.empty] at hposition) h

end Registration

/-! ### What is read from the definitions -/

section Reading

variable {definitions definitions' : Definitions}

theorem AreMarked.children_perm (h : AreMarked Reorders definitions definitions') :
    definitions'.children ~ definitions.children := by
  rw [← map_tree_marked definitions, ← map_tree_marked definitions']
  exact h.marked.perm.map _

theorem AreMarked.findAll_perm (h : AreMarked Reorders definitions definitions') (marker : String) :
    definitions'.toTree.findAll marker ~ definitions.toTree.findAll marker := by
  have hnodes : preorderAll definitions'.children ~ preorderAll definitions.children := by
    rw [preorderAll_eq_flatMap, preorderAll_eq_flatMap]
    exact h.children_perm.flatMap_right _
  exact hnodes.filter _

theorem AreMarked.mem_markedNames_iff (h : AreMarked Reorders definitions definitions')
    (marker : String) (name : String) :
    name ∈ definitions'.toTree.markedNames marker ↔ name ∈ definitions.toTree.markedNames marker :=
  ((h.findAll_perm marker).filterMap _).mem_iff

theorem AreMarked.stripRemoved_reorders (h : AreMarked Reorders definitions definitions') :
    AreMarked Reorders definitions.stripRemoved definitions'.stripRemoved := by
  have hstrip : stripMarked (definitions'.toTree.markedNames "removed") =
      stripMarked (definitions.toTree.markedNames "removed") := by
    funext children
    simp only [stripMarked, isRemoved, contains_eq_mem, h.mem_markedNames_iff,
      stripTree_congr (h.mem_markedNames_iff "removed")]
  refine ⟨h.left.stripRemoved, h.right.stripRemoved, ?_⟩
  rw [marked_stripRemoved, marked_stripRemoved, hstrip]
  exact h.marked.stripMarked _

theorem AreMarked.elements_perm (h : AreMarked Reorders definitions definitions') :
    definitions'.elements ~ definitions.elements := by
  rw [elements_eq_flatMap, elements_eq_flatMap]
  exact h.marked.elements_perm

/-- The only start is the same. -/
theorem AreMarked.startName_eq (h : AreMarked Reorders definitions definitions')
    (hstart : (definitions.toTree.findAll "start").length ≤ 1) :
    startName definitions'.toTree = startName definitions.toTree := by
  apply startName_congr
  have hperm := h.findAll_perm "start"
  match hstarts : definitions.toTree.findAll "start", hstart with
  | [], _ =>
    rw [hstarts] at hperm
    exact perm_nil.mp hperm
  | [start], _ =>
    rw [hstarts] at hperm
    exact perm_singleton.mp hperm

end Reading

/-! ### Flat forms -/

section Flat

variable {bodies : Catalogue (List Tree)} {names : List String}

theorem attribute?_of_flattenElement {element : Tree} {flat : FlatElement}
    (h : flattenElement bodies names element = .ok flat) :
    element.attribute? "name" = some flat.name := by
  unfold flattenElement at h
  split at h
  · cases h
  · rename_i name hname
    rw [hname]
    split at h
    · obtain rfl := Except.ok.inj h
      rfl
    · obtain ⟨blocks, -, hflat⟩ := bind_eq_ok_iff.mp h
      obtain rfl := Except.ok.inj hflat
      rfl

/-- The flat elements have the names of the elements. -/
theorem map_name_of_mapM_flattenElement {elements : List Tree} {flats : List FlatElement}
    (h : elements.mapM (flattenElement bodies names) = .ok flats) :
    flats.map FlatElement.name = elements.filterMap fun element => element.attribute? "name" := by
  have hall := mapM_eq_ok_iff.mp h
  clear h
  induction hall with
  | nil => rfl
  | cons hflat _ ih => rw [map_cons, filterMap_cons, attribute?_of_flattenElement hflat, ih]

/-- The same declaration gives the same type. -/
theorem exists_assignType_of_find?_eq {entries entries' next : Catalogue FlatElement}
    {declaration : Tree} (h : entries'.find? = entries.find?)
    (hnext : assignType entries declaration = .ok next) :
    ∃ next', assignType entries' declaration = .ok next' ∧ next'.find? = next.find? := by
  obtain ⟨name, type, element, hname, htype, helement, rfl⟩ := assignType_eq_ok_iff.mp hnext
  exact ⟨_, assignType_eq_ok_iff.mpr ⟨name, type, element, hname, htype, h ▸ helement, rfl⟩,
    Catalogue.find?_insert_congr h _ _⟩

/-- Declarations for different elements may change places. -/
theorem exists_assignType_swap {entries middle next : Catalogue FlatElement} {first second : Tree}
    (hapart : ∀ name, first.attribute? "name" = some name → ∀ other,
      second.attribute? "name" = some other → name ≠ other)
    (hmiddle : assignType entries first = .ok middle)
    (hnext : assignType middle second = .ok next) :
    ∃ middle' next', assignType entries second = .ok middle' ∧
      assignType middle' first = .ok next' ∧ next'.find? = next.find? := by
  obtain ⟨name, type, element, hname, htype, helement, rfl⟩ := assignType_eq_ok_iff.mp hmiddle
  obtain ⟨other, type', element', hother, htype', helement', rfl⟩ := assignType_eq_ok_iff.mp hnext
  have hne : name ≠ other := hapart name hname other hother
  rw [Catalogue.find?_insert, if_neg (Ne.symm hne)] at helement'
  refine ⟨_, _, assignType_eq_ok_iff.mpr ⟨other, type', element', hother, htype', helement', rfl⟩,
    assignType_eq_ok_iff.mpr ⟨name, type, element, hname, htype, ?_, rfl⟩,
    Catalogue.find?_insert_comm (Ne.symm hne)⟩
  rw [Catalogue.find?_insert, if_neg hne, helement]

/-- **Declarations of types for different elements may come in any order.** -/
theorem exists_foldlM_assignType {declarations declarations' : List Tree}
    (hperm : declarations' ~ declarations)
    (hnodup : (declarations.filterMap fun declaration => declaration.attribute? "name").Nodup)
    {entries entries' all : Catalogue FlatElement} (h : entries'.find? = entries.find?)
    (hall : declarations.foldlM assignType entries = .ok all) :
    ∃ all', declarations'.foldlM assignType entries' = .ok all' ∧ all'.find? = all.find? := by
  have hstep : ∀ entries entries' declaration next,
    Catalogue.find? entries' = Catalogue.find? entries → assignType entries declaration = .ok next →
        ∃ next', assignType entries' declaration = .ok next' ∧ next'.find? = next.find? :=
    fun _ _ _ _ => exists_assignType_of_find?_eq
  -- First the declarations change places, then they begin with the other entries.
  obtain ⟨middle, hmiddle, hsame⟩ := exists_foldlM_of_perm hstep
    (fun _ _ _ _ _ hapart => exists_assignType_swap hapart)
    (fun first second hapart name hname other hother => (hapart other hother name hname).symm)
    hperm.symm (pairwise_filterMap.mp hnodup) hall
  obtain ⟨all', hall', hsame'⟩ := exists_foldlM_of_view hstep h hmiddle
  exact ⟨all', hall', hsame'.trans hsame⟩

/-- **The flat form of the grammar in another order** has the same start, and the same elements are
found in it. -/
theorem exists_flatten_reorders {definitions definitions' : Definitions} {flat : FlatGrammar}
    (h : AreMarked Reorders definitions definitions')
    (hstart : (definitions.toTree.findAll "start").length ≤ 1)
    (htypes : (definitions.toTree.markedNames "elementType").Nodup)
    (helements : (definitions.stripRemoved.elements.filterMap fun element =>
      element.attribute? "name").Nodup)
    (hflat : definitions.flatten = .ok flat) :
    ∃ flat', definitions'.flatten = .ok flat' ∧ flat'.start = flat.start ∧
      flat'.elements.find? = flat.elements.find? := by
  have hstripped := h.stripRemoved_reorders
  obtain ⟨flats, hflats, hrest⟩ := bind_eq_ok_iff.mp hflat
  obtain ⟨entries, hentries, hrest⟩ := bind_eq_ok_iff.mp hrest
  obtain ⟨start, hname, hrest⟩ := bind_eq_ok_iff.mp hrest
  obtain rfl := Except.ok.inj hrest
  have hflatten :=
    flattenElement_congr (fun name => find?_bodies_congr hstripped.left hstripped.right
    (hstripped.marked.find?_registers name)) (hstripped.mem_markedNames_iff "not-implemented")
  obtain ⟨flats', hflats', hperm⟩ := exists_mapM_of_perm hstripped.elements_perm hflats
  -- No two elements have the same name, so their order does not matter.
  have hentered : (flats'.foldl enter (.empty, [])).1.find? =
      (flats.foldl enter (.empty, [])).1.find? := by
    funext name
    rw [← map_name_of_mapM_flattenElement hflats] at helements
    rw [find?_foldl_enter, find?_foldl_enter]
    refine find?_key_of_perm ?_ ((reverse_perm _).trans (hperm.trans (reverse_perm _).symm)) name
    rw [map_reverse, nodup_reverse]
    exact helements
  -- No element has two declarations, so neither does theirs.
  obtain ⟨entries', hentries', hfind⟩ :=
    exists_foldlM_assignType (hstripped.findAll_perm "elementType")
    (htypes.sublist (sublist_markedNames_stripRemoved definitions "elementType")) hentered hentries
  have hstart' := hstripped.startName_eq
    ((length_findAll_stripRemoved_le definitions "start").trans hstart)
  refine ⟨⟨entries', (flats'.foldl enter (.empty, [])).2, start⟩, ?_, rfl, hfind⟩
  rw [flatten, hflatten]
  refine bind_eq_ok_iff.mpr ⟨flats', hflats', bind_eq_ok_iff.mpr ⟨entries', hentries', ?_⟩⟩
  exact bind_eq_ok_iff.mpr ⟨start, hstart'.trans hname, rfl⟩

end Flat

end Definitions

/-! ### Schemas -/

namespace Schema

variable {limits : Limits} {schema : Schema}

/-- Elements of different names may be compiled in any order. -/
theorem exists_foldlM_compileEntry {entries entries' : List (String × FlatElement)}
    (hperm : entries' ~ entries) (hnodup : (entries.map Prod.fst).Nodup)
    {all : Catalogue ElementSchema} (h : entries.foldlM (compileEntry limits) .empty = .ok all) :
    ∃ all', entries'.foldlM (compileEntry limits) .empty = .ok all' ∧ all'.find? = all.find? := by
  have hcompile : ∀ done entry next, compileEntry limits done entry = .ok next ↔
      ∃ element, entry.2.compile limits = .ok element ∧ done.insert entry.1 element = next := by
    intro done entry next
    rw [compileEntry, bind_eq_ok_iff]
    simp only [Except.ok.injEq]
  have hstep : ∀ done done' entry next, Catalogue.find? done' = Catalogue.find? done →
      compileEntry limits done entry = .ok next →
        ∃ next', compileEntry limits done' entry = .ok next' ∧ next'.find? = next.find? := by
    intro done done' entry next hview hnext
    obtain ⟨element, helement, rfl⟩ := (hcompile done entry next).mp hnext
    exact ⟨_, (hcompile done' entry _).mpr ⟨element, helement, rfl⟩,
      Catalogue.find?_insert_congr hview entry.1 element⟩
  have hswap : ∀ done first second middle next, first.1 ≠ second.1 →
      compileEntry limits done first = .ok middle → compileEntry limits middle second = .ok next →
        ∃ middle' next', compileEntry limits done second = .ok middle' ∧
          compileEntry limits middle' first = .ok next' ∧ next'.find? = next.find? := by
    intro done first second middle next hapart hmiddle hnext
    obtain ⟨element, helement, rfl⟩ := (hcompile done first middle).mp hmiddle
    obtain ⟨element', helement', rfl⟩ := (hcompile _ second next).mp hnext
    exact ⟨_, _, (hcompile done second _).mpr ⟨element', helement', rfl⟩,
      (hcompile _ first _).mpr ⟨element, helement, rfl⟩, Catalogue.find?_insert_comm hapart.symm⟩
  exact exists_foldlM_of_perm hstep hswap (fun _ _ hapart => hapart.symm) hperm.symm
    (pairwise_map.mp hnodup) h

/-- **The schema of the same flat elements** has the same entries. -/
theorem exists_ofFlat_of_find?_eq {flat flat' : FlatGrammar} (hstart : flat'.start = flat.start)
    (hfind : flat'.elements.find? = flat.elements.find?) (h : ofFlat limits flat = .ok schema) :
    ∃ schema', ofFlat limits flat' = .ok schema' ∧ schema'.start = schema.start ∧
      ∀ name, schema'.find? name = schema.find? name := by
  obtain ⟨elements, helements, hschema⟩ := bind_eq_ok_iff.mp h
  obtain ⟨hsame, hstart'⟩ := ofElements_eq_ok hschema
  obtain ⟨elements', helements', hfind'⟩ :=
    exists_foldlM_compileEntry (Catalogue.entries_perm hfind) flat.elements.nodup helements
  have hdeclared : elements'.contains flat'.start = true := by
    have hbefore := schema.startDeclared
    rw [hsame, hstart', Catalogue.contains, ← hfind', ← hstart] at hbefore
    exact hbefore
  refine ⟨⟨elements', flat'.start, hdeclared⟩, ?_, hstart.trans hstart'.symm, fun name => ?_⟩
  · exact bind_eq_ok_iff.mpr ⟨elements', helements', dif_pos hdeclared⟩
  · rw [find?, find?, hsame, hfind']

/-- **The order of unrelated definitions does not matter.** The children of the grammar element may
change places, as long as the definitions of one name keep their order: where there is one start
node, no element has two types declared for it, and no two elements that are left have the same
name, the grammar compiles to a schema with the same start and the same entries. -/
theorem compileTree_reordered {tree grammar : Tree} {definitions : Definitions}
    {children : List Tree} (hgrammar : tree.grammar? = some grammar)
    (hcompile : compileTree limits tree = .ok schema)
    (hstart : (grammar.findAll "start").length = 1)
    (htypes : (grammar.markedNames "elementType").Nodup)
    (hcollect : Definitions.collect grammar = .ok definitions)
    (helements : (definitions.stripRemoved.elements.filterMap fun element =>
      element.attribute? "name").Nodup)
    (hperm : children ~ grammar.children)
    (horder : ∀ name, children.filter (Definitions.isDefineOf name) =
      grammar.children.filter (Definitions.isDefineOf name)) :
    ∃ schema', compileTree limits (tree.setGrammar children) = .ok schema' ∧
      schema'.start = schema.start ∧ ∀ name, schema'.find? name = schema.find? name := by
  simp only [compileTree, hgrammar] at hcompile
  obtain ⟨collected, hcollected, hrest⟩ := bind_eq_ok_iff.mp hcompile
  obtain rfl := Except.ok.inj (hcollected.symm.trans hcollect)
  obtain ⟨flat, hflat, hschema⟩ := bind_eq_ok_iff.mp hrest
  obtain ⟨definitions', hcollect', hmarked⟩ := Definitions.exists_collect_reorders
    (show ({ grammar with children := children } : Tree).children ~ grammar.children from hperm)
    horder hcollect
  -- Registration moves nodes around, but loses none of these.
  have hstarts :=
    (Definitions.findAll_collect (show "start" ≠ "define" by decide) hcollect).length_eq
  have htypes' : (collected.toTree.markedNames "elementType").Nodup :=
    (((Definitions.findAll_collect (show "elementType" ≠ "define" by decide) hcollect).filterMap
      _).nodup_iff).mpr htypes
  obtain ⟨flat', hflat', hstart', hfind⟩ :=
    Definitions.exists_flatten_reorders hmarked (hstarts.trans hstart).le htypes' helements hflat
  obtain ⟨schema', hschema', hsame⟩ := exists_ofFlat_of_find?_eq hstart' hfind hschema
  refine ⟨schema', ?_, hsame⟩
  simp only [compileTree, grammar?_setGrammar, hgrammar, Option.map_some]
  exact bind_eq_ok_iff.mpr ⟨definitions', hcollect', bind_eq_ok_iff.mpr ⟨flat', hflat', hschema'⟩⟩

/-- The start comes later, and the definitions of one name come before that of another one. -/
theorem compileTree_reordered_combined :
    let reference (name : String) : Tree := ⟨"ref", .ofList [("name", name)], []⟩
    let start := Tree.plain "start" [reference "list"]
    let list : Tree := ⟨"define", .ofList [("name", "list")],
      [⟨"element", .ofList [("name", "list")], [reference "item"]⟩]⟩
    let item : Tree := ⟨"define", .ofList [("name", "item")],
      [⟨"element", .ofList [("name", "item")], [.plain "text" []]⟩]⟩
    let more : Tree := ⟨"define", .ofList [("name", "item"), ("combine", "interleave")],
      [⟨"element", .ofList [("name", "more")], []⟩]⟩
    let type : Tree := ⟨"elementType", .ofList [("name", "item"), ("type", "text")], []⟩
    ∃ schema schema', schema.start = "list" ∧
      compileTree {} (.plain "grammar" [start, list, item, more, type]) = .ok schema ∧
      compileTree {} (.plain "grammar" [type, item, more, start, list]) = .ok schema' ∧
      schema'.start = schema.start ∧ ∀ name, schema'.find? name = schema.find? name := by
  intro reference start list item more type
  let grammar := Tree.plain "grammar" [start, list, item, more, type]
  have hcompiled : Schema.start <$> compileTree {} grammar = .ok "list" := by cbv
  obtain ⟨schema, hcompile, hlist⟩ := map_eq_ok_iff.mp hcompiled
  let definitions : Definitions :=
    ⟨[start, list, { item with children := item.children ++ more.children },
      { more with children := [] }, type], (Catalogue.empty.insert "list" 0).insert "item" 1⟩
  have hcollect : Definitions.collect grammar = .ok definitions := rfl
  have hperm : [type, item, more, start, list] ~ grammar.children :=
    (perm_append_comm.append_left [type] : [type] ++ ([item, more] ++ [start, list]) ~
      [type] ++ ([start, list] ++ [item, more])).trans perm_append_comm
  have horder : ∀ name, [type, item, more, start, list].filter (Definitions.isDefineOf name) =
      grammar.children.filter (Definitions.isDefineOf name) := by
    intro name
    have hchildren : grammar.children = [start, list, item, more, type] := rfl
    have hlists : Definitions.isDefineOf name list = decide (some "list" = some name) := rfl
    have hitems : Definitions.isDefineOf name item = decide (some "item" = some name) := rfl
    have hmore : Definitions.isDefineOf name more = decide (some "item" = some name) := rfl
    have hothers : Definitions.isDefineOf name start = false ∧
        Definitions.isDefineOf name type = false :=
      ⟨rfl, rfl⟩
    by_cases hname : "list" = name
    · subst hname
      rfl
    · simp [hchildren, hlists, hitems, hmore, hothers, hname, filter_cons]
  have hstarts : (grammar.findAll "start").length = 1 := by decide +kernel
  have htypes : (grammar.markedNames "elementType").Nodup := by decide +kernel
  have helements : (definitions.stripRemoved.elements.filterMap fun element =>
      element.attribute? "name").Nodup := by
    decide +kernel
  obtain ⟨schema', hcompile', hsame⟩ :=
    @compileTree_reordered {} schema grammar grammar definitions [type, item, more, start, list] rfl
      hcompile hstarts htypes hcollect helements hperm horder
  exact ⟨schema, schema', hlist, hcompile, hcompile', hsame⟩

end Schema

end RelaxSchema
