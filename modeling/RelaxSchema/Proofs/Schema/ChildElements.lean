import RelaxSchema.Proofs.Schema.Issues
import RelaxSchema.Proofs.Schema.Removal

/-!
# Child elements of valid documents

* `Schema.exists_leaf_of_childElement`: in a valid document each child element stands for an element
  pattern of its name in the definition of its parent, unless its name is that of the token of
  texts;
* `Schema.not_forall_exists_elementPattern`: an element of that name is admitted by a text pattern
  alone.

A child element that is accepted is a token of the content model, and this has only the tokens of
the leaves of the expanded content (`Schema.exists_leaf_of_mem_allowed`).
-/

namespace RelaxSchema

open List RelaxSchema.Tree

/-- A pattern for the elements of a name. -/
def Tree.IsElementPattern (name : String) (tree : Tree) : Prop :=
  tree.name = "element" ∧ tree.attribute? "name" = some name

/-- The token of a leaf is that of an element pattern, or of a text pattern. -/
theorem Tree.leafToken?_eq_some_iff {tree : Tree} {token : String} : leafToken? tree = some token ↔
    tree.IsElementPattern token ∨ tree.name = "text" ∧ token = textToken := by
  rw [leafToken?, IsElementPattern]
  split
  · rename_i hname
    simp [hname]
  · rename_i helement
    split
    · rename_i htext
      simp [htext, eq_comm]
    · rename_i htext
      simp [helement, htext]

namespace Schema

variable {limits : Limits} {tree : Tree} {schema : Schema}

/-- Each token of an entry is that of a leaf of the expanded content of the last definition. -/
theorem exists_leaf_of_mem_allowed (h : compileTree limits tree = .ok schema) :
    ∃ grammar definitions, tree.grammar? = some grammar ∧
      Definitions.collect grammar = .ok definitions ∧
      ∀ name entry, schema.find? name = some entry → ∀ token ∈ entry.expression.allowed,
        ∃ element blocks, definitions.stripRemoved.elementOf? name = some element ∧
          Definitions.expandContent definitions.stripRemoved.bodies element.children = .ok blocks ∧
          ∃ node ∈ preorderAll blocks, leafToken? node = some token := by
  obtain ⟨grammar, definitions, hgrammar, hcollect, hentries⟩ := exists_flattened_of_compileTree h
  refine ⟨grammar, definitions, hgrammar, hcollect, fun name entry hentry token hallowed => ?_⟩
  obtain ⟨element, made, type, helement, hmade, hcompile⟩ := hentries name entry hentry
  have htoken := (FlatElement.mem_allowed_of_compile hcompile).mp hallowed
  obtain ⟨blocks, hblocks, hdivided⟩ :=
    Definitions.exists_divide_of_mem_tokens hmade (FlatElement.model_of_compile hcompile :) htoken
  rw [Model.tokens, mem_distinct] at htoken
  exact ⟨element, blocks, helement, hblocks,
    Definitions.exists_leaf_of_mem_occurrences hdivided htoken⟩

/-- **Child elements stand for element patterns.** In a valid document, the definition of an element
whose content is validated has an element pattern for each of its child elements in its expanded
content. Only a child element with the name of the token of texts may stand for a text pattern
instead, and then there is an entry of that name. -/
theorem exists_leaf_of_childElement (h : compileTree limits tree = .ok schema) :
    ∃ grammar definitions, tree.grammar? = some grammar ∧
      Definitions.collect grammar = .ok definitions ∧
      ∀ root verdict, schema.documentVerdict (some root) = .ok verdict → verdict.ok = true →
        ∀ parent, schema.Reaches root parent → schema.descendsInto parent = true →
          ∀ child ∈ parent.childElements, ∃ element blocks,
            definitions.stripRemoved.elementOf? parent.name = some element ∧
            Definitions.expandContent definitions.stripRemoved.bodies element.children =
              .ok blocks ∧ ((∃ node ∈ preorderAll blocks, node.IsElementPattern child.name) ∨
              child.name = textToken ∧ (∃ node ∈ preorderAll blocks, node.name = "text") ∧
                ∃ entry, schema.find? textToken = some entry) := by
  obtain ⟨grammar, definitions, hgrammar, hcollect, hleaves⟩ := exists_leaf_of_mem_allowed h
  refine ⟨grammar, definitions, hgrammar, hcollect, ?_⟩
  intro root verdict hverdict hok parent hreaches hdescends child hchild
  obtain rfl : schema.rootVerdict root = verdict := Except.ok.inj hverdict
  obtain ⟨-, hvalid⟩ := (ok_rootVerdict_iff root).mp hok
  obtain ⟨entry, hentry, hallowed⟩ :=
    exists_entry_of_childElement (hvalid parent hreaches) hdescends hchild
  obtain ⟨element, blocks, helement, hblocks, node, hnode, htoken⟩ :=
    hleaves parent.name entry hentry child.name hallowed
  refine ⟨element, blocks, helement, hblocks, ?_⟩
  rcases leafToken?_eq_some_iff.mp htoken with hpattern | ⟨htext, hname⟩
  · exact .inl ⟨node, hnode, hpattern⟩
  · -- The child element is visited as well, so its name has an entry.
    refine .inr ⟨hname, ⟨node, hnode, htext⟩, ?_⟩
    rw [← hname, ← Option.ne_none_iff_exists']
    have hvisited := hvalid child (hreaches.trans (.child hdescends hchild (.self child)))
    exact fun hnone => validateElement_ne_nil hnone hvisited

/-- A list in an item of a list, and an element that is admitted by a text. -/
theorem exists_leaf_of_childElement_nested :
    let named (name value : String) (children : List Tree) : Tree :=
      ⟨name, .ofList [("name", value)], children⟩
    let define (name : String) (children : List Tree) : Tree :=
      named "define" name [named "element" name children]
    let grammar : Tree := .plain "grammar" [.plain "start" [named "ref" "list" []],
      define "list" [.plain "oneOrMore" [named "ref" "item" []]],
      define "item" [.plain "choice" [named "ref" "list" [], .plain "text" []]],
      define "TEXT" [.plain "empty" []]]
    let inner : Element := ⟨"list", .empty, [.element "item" .empty [.element "TEXT" .empty []]]⟩
    let item : Element := ⟨"item", .empty, [inner.toNode]⟩
    let root : Element := ⟨"list", .empty, [item.toNode]⟩
    ∃ schema verdict definitions element blocks, compileTree {} grammar = .ok schema ∧
      schema.documentVerdict (some root) = .ok verdict ∧ verdict.ok = true ∧
      Definitions.collect grammar = .ok definitions ∧
      definitions.stripRemoved.elementOf? "item" = some element ∧
      Definitions.expandContent definitions.stripRemoved.bodies element.children = .ok blocks ∧
      ∃ node ∈ preorderAll blocks, node.IsElementPattern "list" := by
  intro named define grammar inner item root
  have hrun : (fun schema => ((schema.rootVerdict root).ok, schema.descendsInto root,
      schema.descendsInto item)) <$> compileTree {} grammar = .ok (true, true, true) := by cbv
  obtain ⟨schema, hcompile, hschema⟩ := map_eq_ok_iff.mp hrun
  obtain ⟨hok, hschema⟩ := Prod.mk.inj hschema
  obtain ⟨hroot, hdescends⟩ := Prod.mk.inj hschema
  obtain ⟨grammar', definitions, hgrammar, hcollect, hall⟩ := exists_leaf_of_childElement hcompile
  obtain rfl : grammar = grammar' := Option.some.inj hgrammar
  have hreaches : schema.Reaches root item := .child hroot mem_cons_self (.self item)
  obtain ⟨element, blocks, helement, hblocks, hleaf⟩ :=
    hall root _ rfl hok item hreaches hdescends inner mem_cons_self
  refine ⟨schema, _, definitions, element, blocks, hcompile, rfl, hok, hcollect,
    helement, hblocks, ?_⟩
  exact hleaf.resolve_right fun htext => absurd htext.1 (by decide)

/-- **Not every child element of a valid document stands for an element pattern**: the name of the
token of texts is not reserved, so an element of that name is accepted where there is only a text
pattern. -/
theorem not_forall_exists_elementPattern : ¬ ∀ (limits : Limits) (tree : Tree) (schema : Schema),
    compileTree limits tree = .ok schema →
    ∃ grammar definitions, tree.grammar? = some grammar ∧
      Definitions.collect grammar = .ok definitions ∧
      ∀ root verdict, schema.documentVerdict (some root) = .ok verdict → verdict.ok = true →
        ∀ parent, schema.Reaches root parent → schema.descendsInto parent = true →
          ∀ child ∈ parent.childElements, ∃ element blocks,
            definitions.stripRemoved.elementOf? parent.name = some element ∧
            Definitions.expandContent definitions.stripRemoved.bodies
              element.children = .ok blocks ∧
            ∃ node ∈ preorderAll blocks, node.IsElementPattern child.name := by
  intro h
  let named (name value : String) (children : List Tree) : Tree :=
    ⟨name, .ofList [("name", value)], children⟩
  let grammar : Tree := .plain "grammar" [.plain "start" [named "ref" "a" []],
    named "define" "a" [named "element" "a" [.plain "text" []]],
    named "define" "TEXT" [named "element" "TEXT" [.plain "empty" []]]]
  let child : Element := ⟨"TEXT", .empty, []⟩
  let root : Element := ⟨"a", .empty, [child.toNode]⟩
  have hrun : (fun schema => ((schema.rootVerdict root).ok, schema.descendsInto root)) <$>
      compileTree {} grammar = .ok (true, true) := by cbv
  obtain ⟨schema, hcompile, hschema⟩ := map_eq_ok_iff.mp hrun
  obtain ⟨hok, hdescends⟩ := Prod.mk.inj hschema
  let definitions : Definitions := ⟨grammar.children, .ofList [("a", 0), ("TEXT", 1)]⟩
  have hcollect : Definitions.collect grammar = .ok definitions := by cbv
  have helement : definitions.stripRemoved.elementOf? "a" =
      some (named "element" "a" [.plain "text" []]) := by cbv
  have hblocks : Definitions.expandContent definitions.stripRemoved.bodies [.plain "text" []] =
      .ok [.plain "text" []] := by cbv
  obtain ⟨grammar', collected, hgrammar, hcollected, hall⟩ := h {} grammar schema hcompile
  obtain rfl : grammar = grammar' := Option.some.inj hgrammar
  obtain rfl : definitions = collected := Except.ok.inj (hcollect.symm.trans hcollected)
  obtain ⟨element, blocks, hlast, hexpanded, node, hnode, hname, -⟩ :=
    hall root _ rfl hok root (.self root) hdescends child mem_cons_self
  obtain rfl : named "element" "a" [.plain "text" []] = element :=
    Option.some.inj (helement.symm.trans hlast)
  obtain rfl : [plain "text" []] = blocks := Except.ok.inj (hblocks.symm.trans hexpanded)
  -- The only node of the content is the text.
  obtain rfl : node = plain "text" [] := mem_singleton.mp hnode
  exact absurd hname (by decide)

end Schema

end RelaxSchema
