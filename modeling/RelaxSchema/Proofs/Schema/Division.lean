import RelaxSchema.Proofs.Content.Allowed
import RelaxSchema.Proofs.Grammar.Division
import RelaxSchema.Proofs.Schema.Reordering

/-!
# What an entry has of its definition

* `Schema.isDivided_compileTree`: an entry of a compiled grammar allows the leaves of the blocks
  without attributes in the last definition of its element, and lists the attributes of all blocks.

On the way an entry is flattened (`Definitions.exists_of_find?_flatten`) and compiled
(`FlatElement.isDivided_compile`). Where it comes from is the same for all that is said of compiled
grammars (`Schema.exists_flattened_of_compileTree`).
-/

namespace RelaxSchema

open List RelaxSchema.Tree

/-! ### Definitions of elements -/

namespace Definitions

/-- The last definition of an element of a name. -/
def elementOf? (definitions : Definitions) (name : String) : Option Tree :=
  definitions.elements.reverse.find? fun element => element.attribute? "name" = some name

theorem elementOf?_eq_some {definitions : Definitions} {name : String} {element : Tree}
    (h : definitions.elementOf? name = some element) :
    element ∈ definitions.elements ∧ element.attribute? "name" = some name :=
  ⟨mem_reverse.mp (mem_of_find?_eq_some h), of_decide_eq_true (find?_some h :)⟩

/-- A declaration gives an entry a type and changes nothing else. -/
theorem exists_of_find?_assignType {declarations : List Tree} {entries all : Catalogue FlatElement}
    (h : declarations.foldlM assignType entries = .ok all) {name : String} {entry : FlatElement}
    (hfind : all.find? name = some entry) :
    ∃ flat type, entries.find? name = some flat ∧ entry = { flat with type := type } := by
  refine foldlM_induction (P := fun next => ∀ name entry, Catalogue.find? next name = some entry →
      ∃ flat type, entries.find? name = some flat ∧ entry = { flat with type := type })
    (fun next declaration _ last hnext hlast name entry hfind => ?_)
    (fun name entry hfind => ⟨entry, entry.type, hfind, rfl⟩) h name entry hfind
  obtain ⟨other, type, declared, -, -, hdeclared, rfl⟩ := assignType_eq_ok_iff.mp hlast
  rw [Catalogue.find?_insert] at hfind
  split at hfind
  · rename_i hname
    obtain rfl := Option.some.inj hfind
    obtain ⟨flat, _, hflat, rfl⟩ := hnext other declared hdeclared
    exact ⟨flat, some type, hname ▸ hflat, rfl⟩
  · exact hnext name entry hfind

/-- The flat form that is found last is that of the last definition. -/
theorem exists_of_find?_flats {bodies : Catalogue (List Tree)} {names : List String}
    {elements : List Tree} {flats : List FlatElement}
    (h : elements.mapM (flattenElement bodies names) = .ok flats) {name : String}
    {flat : FlatElement} (hfind : (flats.reverse.find? fun flat => flat.name = name) = some flat) :
    ∃ element, (elements.reverse.find? fun element => element.attribute? "name" = some name) =
      some element ∧ flattenElement bodies names element = .ok flat := by
  have hall := forall₂_reverse_iff.mpr (mapM_eq_ok_iff.mp h)
  refine exists_find?_of_forall₂
    (hall.flip.imp fun flat element hflat => ⟨?_, fun _ => hflat⟩) hfind
  simp only [attribute?_of_flattenElement hflat, Option.some.injEq]

/-- **An entry of a flat grammar** is the flat form of the last definition, up to the type. -/
theorem exists_of_find?_flatten {definitions : Definitions} {flat : FlatGrammar}
    (h : definitions.flatten = .ok flat) {name : String} {entry : FlatElement}
    (hfind : flat.elements.find? name = some entry) :
    ∃ element made type, definitions.stripRemoved.elementOf? name = some element ∧
      flattenElement definitions.stripRemoved.bodies
        (definitions.stripRemoved.toTree.markedNames "not-implemented") element = .ok made ∧
      entry = { made with type := type } := by
  obtain ⟨flats, hflats, hrest⟩ := bind_eq_ok_iff.mp h
  obtain ⟨entries, hentries, hrest⟩ := bind_eq_ok_iff.mp hrest
  obtain ⟨start, -, hrest⟩ := bind_eq_ok_iff.mp hrest
  obtain rfl := Except.ok.inj hrest
  obtain ⟨made, type, hmade, rfl⟩ := exists_of_find?_assignType hentries hfind
  rw [find?_foldl_enter] at hmade
  obtain ⟨element, helement, hflat⟩ := exists_of_find?_flats hflats hmade
  exact ⟨element, made, type, helement, hflat, rfl⟩

/-- What is not marked has its content expanded and divided. -/
theorem flattenElement_eq_ok_iff {bodies : Catalogue (List Tree)} {names : List String}
    {element : Tree} {name : String} (hname : element.attribute? "name" = some name)
    (hnames : name ∉ names) {flat : FlatElement} : flattenElement bodies names element = .ok flat ↔
      ∃ blocks, expandContent bodies element.children = .ok blocks ∧
        flat = ⟨name, none, some (divide blocks)⟩ := by
  simp only [flattenElement, hname, if_neg hnames, bind_eq_ok_iff, Except.ok.injEq,
    eq_comm (a := flat)]

end Definitions

/-! ### Entries -/

/-- What an entry has of the blocks that the content of its element is expanded to. -/
structure ElementSchema.IsDivided (blocks : List Tree) (entry : ElementSchema) : Prop where
  /-- It allows the elements and texts at any depth of the blocks without attributes. -/
  mem_allowed_iff : (∀ node ∈ preorderAll blocks, node.name = "text" → node.children = []) →
    ∀ token, token ∈ entry.expression.allowed ↔
      ∃ block ∈ blocks, block.mentions "attribute" = false ∧ token ∈ leafTokens [block]
  /-- It lists the attributes that are found through groups, choices and repetitions. -/
  attributes_eq : entry.attributes =
    distinct ((nodesThroughAll attributeWrappers blocks).filterMap attributeName?)

/-- An entry has the content model of the flat element that it is compiled from. -/
theorem FlatElement.model_of_compile {limits : Limits} {element : FlatElement}
    {entry : ElementSchema} (h : element.compile limits = .ok entry) :
    element.model = .ok entry.expression.model := by
  obtain ⟨model, hmodel, h⟩ := bind_eq_ok_iff.mp h
  obtain ⟨expression, hexpression, h⟩ := bind_eq_ok_iff.mp h
  obtain ⟨type, -, hcreate⟩ := bind_eq_ok_iff.mp h
  obtain ⟨-, -, rfl⟩ := ElementSchema.create_eq_ok_iff.mp hcreate
  rw [hmodel, (Expression.compile_eq_ok hexpression).2]

/-- An entry allows the tokens of its content model. -/
theorem FlatElement.mem_allowed_of_compile {limits : Limits} {element : FlatElement}
    {entry : ElementSchema} (h : element.compile limits = .ok entry) {token : String} :
    token ∈ entry.expression.allowed ↔ token ∈ entry.expression.model.tokens := by
  obtain ⟨model, -, h⟩ := bind_eq_ok_iff.mp h
  obtain ⟨expression, hexpression, h⟩ := bind_eq_ok_iff.mp h
  obtain ⟨type, -, hcreate⟩ := bind_eq_ok_iff.mp h
  obtain ⟨-, -, rfl⟩ := ElementSchema.create_eq_ok_iff.mp hcreate
  rw [(Expression.compile_eq_ok hexpression).2]
  exact Engine.mem_tokens_iff_mentions.trans (Expression.isAllowed_iff_mem_tokens hexpression)

theorem FlatElement.isDivided_compile {limits : Limits} {bodies : Catalogue (List Tree)}
    {content blocks : List Tree} (hblocks : Definitions.expandContent bodies content = .ok blocks)
    {name : String} {type : Option String} {entry : ElementSchema}
    (h : compile limits ⟨name, type, some (Definitions.divide blocks)⟩ = .ok entry) :
    entry.IsDivided blocks := by
  refine ⟨fun htexts token => ?_, ?_⟩
  · rw [FlatElement.mem_allowed_of_compile h, Model.tokens, mem_distinct]
    exact Definitions.mem_occurrences_divide hblocks htexts (FlatElement.model_of_compile h) token
  · obtain ⟨model, -, h⟩ := bind_eq_ok_iff.mp h
    obtain ⟨expression, -, h⟩ := bind_eq_ok_iff.mp h
    obtain ⟨type, -, hcreate⟩ := bind_eq_ok_iff.mp h
    obtain ⟨-, -, rfl⟩ := ElementSchema.create_eq_ok_iff.mp hcreate
    have hnames : FlatElement.attributeNames ⟨name, none, some (Definitions.divide blocks)⟩ =
        distinct (attributeOccurrences blocks) :=
      congrArg distinct (attributeOccurrences_filter blocks)
    rw [← attributeOccurrences_eq, ← hnames]
    exact distinct_eq_self (nodup_distinct _)

namespace Schema

variable {limits : Limits} {schema : Schema}

/-- **Where entries come from**: each is compiled from the last definition of its element that is
not overridden, with the type that is declared for it. -/
theorem exists_flattened_of_compileTree {tree : Tree} (h : compileTree limits tree = .ok schema) :
    ∃ grammar definitions, tree.grammar? = some grammar ∧
      Definitions.collect grammar = .ok definitions ∧ ∀ name entry, schema.find? name = some entry →
        ∃ element made type, definitions.stripRemoved.elementOf? name = some element ∧
          Definitions.flattenElement definitions.stripRemoved.bodies
            (definitions.stripRemoved.toTree.markedNames "not-implemented") element = .ok made ∧
          FlatElement.compile limits { made with type := type } = .ok entry := by
  obtain ⟨grammar, definitions, flat, hgrammar, hcollect, hflat, hschema⟩ :=
    exists_ofFlat_of_compileTree h
  refine ⟨grammar, definitions, hgrammar, hcollect, fun name entry hentry => ?_⟩
  have hrel := rel_find?_ofFlat hschema name
  rw [hentry] at hrel
  generalize hfound : flat.elements.find? name = found at hrel
  cases hrel with
  | some hcompile =>
    obtain ⟨element, made, type, helement, hmade, rfl⟩ :=
      Definitions.exists_of_find?_flatten hflat hfound
    exact ⟨element, made, type, helement, hmade, hcompile⟩

/-- **Content and attributes are divided without loss.** Take an element of a compiled grammar that
is not marked as not implemented, and expand the content of its last definition, where removed
elements and references are left out. The entry allows exactly the elements and texts that stand at
any depth of the blocks without attributes, if texts hold nothing. Its attributes are exactly those
that are found through groups, choices and repetitions of the blocks, each name once, in the order
in which the names come first. -/
theorem isDivided_compileTree {tree : Tree} (h : compileTree limits tree = .ok schema) :
    ∃ grammar definitions, tree.grammar? = some grammar ∧
      Definitions.collect grammar = .ok definitions ∧ ∀ name entry, schema.find? name = some entry →
        name ∉ definitions.stripRemoved.toTree.markedNames "not-implemented" →
        ∃ element blocks, definitions.stripRemoved.elementOf? name = some element ∧
          Definitions.expandContent definitions.stripRemoved.bodies element.children = .ok blocks ∧
          entry.IsDivided blocks := by
  obtain ⟨grammar, definitions, hgrammar, hcollect, hentries⟩ := exists_flattened_of_compileTree h
  refine ⟨grammar, definitions, hgrammar, hcollect, fun name entry hentry himplemented => ?_⟩
  obtain ⟨element, flattened, type, helement, hflattened, hcompile⟩ := hentries name entry hentry
  obtain ⟨-, hname⟩ := Definitions.elementOf?_eq_some helement
  obtain ⟨blocks, hblocks, rfl⟩ :=
    (Definitions.flattenElement_eq_ok_iff hname himplemented).mp hflattened
  exact ⟨element, blocks, helement, hblocks, FlatElement.isDivided_compile hblocks hcompile⟩

/-- A block that holds an attribute hides its elements and texts, and an attribute below an
interleaving is not found. -/
theorem isDivided_compileTree_mixed :
    let named (name value : String) (children : List Tree) : Tree :=
      ⟨name, .ofList [("name", value)], children⟩
    let content : List Tree := [.plain "optional" [named "attribute" "id" []],
      .plain "group" [named "attribute" "x" [], named "element" "d" []],
      .plain "interleave" [named "attribute" "y" [], .plain "text" []],
      named "ref" "common" [],
      .plain "zeroOrMore" [.plain "choice"
        [named "ref" "inline" [], named "element" "b" [.plain "text" []]]]]
    let grammar : Tree := .plain "grammar" [.plain "start" [named "ref" "a" []],
      named "define" "a" [named "element" "a" content],
      named "define" "common" [.plain "choice"
        [named "attribute" "id" [], named "attribute" "class" []]],
      named "define" "inline" [.plain "optional" [named "element" "c" []]]]
    ∃ schema entry, compileTree {} grammar = .ok schema ∧ schema.find? "a" = some entry ∧
      (∀ token, token ∈ entry.expression.allowed ↔ token ∈ ["c", "b"]) ∧
      entry.attributes = ["id", "x", "class"] := by
  intro named content grammar
  have hrun : (fun schema => (schema.find? "a").isSome) <$> compileTree {} grammar = .ok true := by
    cbv
  obtain ⟨schema, hcompile, hfound⟩ := map_eq_ok_iff.mp hrun
  obtain ⟨entry, hentry⟩ := Option.isSome_iff_exists.mp hfound
  let definitions : Definitions :=
    ⟨grammar.children, .ofList [("a", 0), ("common", 1), ("inline", 2)]⟩
  let blocks : List Tree := [.plain "optional" [named "attribute" "id" []],
    .plain "group" [named "attribute" "x" [], Expansion.leaf "d"],
    .plain "interleave" [named "attribute" "y" [], .plain "text" []],
    .plain "choice" [named "attribute" "id" [], named "attribute" "class" []],
    .plain "zeroOrMore" [.plain "choice"
      [.plain "optional" [Expansion.leaf "c"], Expansion.leaf "b"]]]
  have hcollect : Definitions.collect grammar = .ok definitions := by cbv
  have helement : definitions.stripRemoved.elementOf? "a" = some (named "element" "a" content) := by
    cbv
  have hblocks : Definitions.expandContent definitions.stripRemoved.bodies content =
      .ok blocks := by cbv
  have hleaves : leafTokens (blocks.filter fun block => !block.mentions "attribute") =
      ["c", "b"] := by cbv
  have hnames : distinct ((nodesThroughAll attributeWrappers blocks).filterMap attributeName?) =
      ["id", "x", "class"] := by
    cbv
  obtain ⟨root, collected, hroot, hcollected, hall⟩ := isDivided_compileTree hcompile
  obtain rfl : grammar = root := Option.some.inj hroot
  obtain rfl : definitions = collected := Except.ok.inj (hcollect.symm.trans hcollected)
  obtain ⟨element, expanded, hlast, hexpanded, hallowed, hattributes⟩ :=
    hall "a" entry hentry (by decide +kernel)
  obtain rfl : named "element" "a" content = element := Option.some.inj (helement.symm.trans hlast)
  obtain rfl : blocks = expanded := Except.ok.inj (hblocks.symm.trans hexpanded)
  refine ⟨schema, entry, hcompile, hentry, fun token => ?_, hattributes.trans hnames⟩
  rw [hallowed (by decide +kernel), ← hleaves, mem_leafTokens]
  simp only [mem_filter, Bool.not_eq_true', and_assoc]

end Schema

end RelaxSchema
