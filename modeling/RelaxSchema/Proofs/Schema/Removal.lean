import RelaxSchema.Proofs.Grammar.Removal
import RelaxSchema.Proofs.Schema.Division

/-!
# Removed names in schemas

* `Schema.isStripped_compileTree`: exactly the elements and references of the names that are marked
  as removed go away, with all that is below them, and a compiled schema has none of these names.

An entry has the name of an element that is left, and so have the tokens of its content, also those
that come from references (`Definitions.exists_meets_of_mem_occurrences`).
-/

namespace RelaxSchema

open List RelaxSchema.Tree

namespace Definitions

variable {definitions : Definitions} {name : String}

/-- No element is left that has a removed name. -/
theorem notMem_markedNames_of_mem_stripRemoved {element : Tree} (hname : element.name = "element")
    (hattribute : element.attribute? "name" = some name)
    (hmem : element ∈ preorderAll definitions.stripRemoved.children) :
    name ∉ definitions.toTree.markedNames "removed" := by
  intro hremoved
  have hkept := not_isRemoved_of_mem_strip definitions.children hmem
  simp [isRemoved, hname, hattribute, hremoved] at hkept

/-- What is met from an element that is defined is a node of the grammar. -/
theorem mem_preorderAll_of_meets {element node : Tree} (helement : element ∈ definitions.elements)
    (hmeets : Expansion.Meets definitions.bodies element.children node) :
    node ∈ preorderAll definitions.children := by
  rcases hmeets.mem_preorderAll with hbelow | ⟨entry, hentry, hnode⟩
  · exact mem_preorderAll_of_below (mem_elements helement).2 hbelow
  · exact mem_preorderAll_of_bodies hentry hnode

end Definitions

namespace Definitions

/-- Only an element that has its content expanded has tokens. -/
theorem exists_divide_of_mem_tokens {bodies : Catalogue (List Tree)} {names : List String}
    {element : Tree} {flat : FlatElement} (hflat : flattenElement bodies names element = .ok flat)
    {model : Model} (hmodel : flat.model = .ok model) {token : String}
    (hmem : token ∈ model.tokens) :
    ∃ blocks, expandContent bodies element.children = .ok blocks ∧
      contentModel (divide blocks).children = .ok model := by
  unfold flattenElement at hflat
  split at hflat
  · cases hflat
  · split at hflat
    · obtain rfl := Except.ok.inj hflat
      obtain rfl := Except.ok.inj hmodel
      cases hmem
    · obtain ⟨blocks, hblocks, hflat⟩ := bind_eq_ok_iff.mp hflat
      obtain rfl := Except.ok.inj hflat
      exact ⟨blocks, hblocks, hmodel⟩

/-- A token of a flat element is that of texts, or the name of an element that is met in the
content. -/
theorem exists_meets_of_mem_tokens {bodies : Catalogue (List Tree)} {names : List String}
    {element : Tree} {flat : FlatElement} (hflat : flattenElement bodies names element = .ok flat)
    {model : Model} (hmodel : flat.model = .ok model) {token : String}
    (hmem : token ∈ model.tokens) :
    token = textToken ∨ ∃ inner, Expansion.Meets bodies element.children inner ∧
      inner.name = "element" ∧ inner.attribute? "name" = some token := by
  obtain ⟨blocks, hblocks, hdivided⟩ := exists_divide_of_mem_tokens hflat hmodel hmem
  rw [Model.tokens, mem_distinct] at hmem
  exact exists_meets_of_mem_occurrences hblocks hdivided hmem

end Definitions

namespace Schema

variable {limits : Limits} {tree : Tree} {schema : Schema}

/-- **Removed names vanish, and nothing else does.** What is left of a grammar are the only trees
with just those of its nodes that are no element or reference of a marked name and stand below none,
in the same order and below the same nodes. The names may as well be removed one after the other. If
the grammar compiles, no marked name has an entry or is a token of some content, unless it is the
one of texts. -/
theorem isStripped_compileTree (definitions : Definitions) :
    let removed := definitions.toTree.markedNames "removed"
    (∀ trees, trees = definitions.stripRemoved.children ↔
      Definitions.labelTrails (trailsAll trees) =
        Definitions.labelTrails
          ((trailsAll definitions.children).filter (Definitions.isKept removed))) ∧
      definitions.stripRemoved.children =
        removed.foldl (fun left name => Definitions.strip [name] left) definitions.children ∧
      ∀ limits tree grammar schema, tree.grammar? = some grammar →
        Definitions.collect grammar = .ok definitions → compileTree limits tree = .ok schema →
          (∀ name, name ∈ grammar.markedNames "removed" ↔ name ∈ removed) ∧
          ∀ name ∈ removed, schema.find? name = none ∧ ∀ other entry,
            schema.find? other = some entry → name ∈ entry.expression.model.tokens →
              name = textToken := by
  intro removed
  refine ⟨fun trees => Definitions.eq_strip_iff, Definitions.strip_eq_foldl removed _, ?_⟩
  intro limits tree grammar schema hgrammar hcollect h
  obtain ⟨root, collected, hroot, hcollected, hentries⟩ := exists_flattened_of_compileTree h
  obtain rfl : grammar = root := Option.some.inj (hgrammar.symm.trans hroot)
  obtain rfl : definitions = collected := Except.ok.inj (hcollect.symm.trans hcollected)
  have hmarked : definitions.toTree.findAll "removed" ~ grammar.findAll "removed" :=
    Definitions.findAll_collect (by decide) hcollect
  refine ⟨fun name => ((hmarked.filterMap _).mem_iff).symm, fun name hname => ⟨?_, ?_⟩⟩
  · rw [Option.eq_none_iff_forall_ne_some]
    intro entry hentry
    obtain ⟨element, made, type, helement, -, -⟩ := hentries name entry hentry
    obtain ⟨hmem, hattribute⟩ := Definitions.elementOf?_eq_some helement
    obtain ⟨hnamed, hnode⟩ := Definitions.mem_elements hmem
    exact Definitions.notMem_markedNames_of_mem_stripRemoved hnamed hattribute hnode hname
  · intro other entry hentry htoken
    obtain ⟨element, made, type, helement, hmade, hcompile⟩ := hentries other entry hentry
    refine (Definitions.exists_meets_of_mem_tokens hmade (FlatElement.model_of_compile hcompile :)
      htoken).resolve_right ?_
    rintro ⟨inner, hmeets, hinner, hattribute⟩
    obtain ⟨hmem, -⟩ := Definitions.elementOf?_eq_some helement
    exact Definitions.notMem_markedNames_of_mem_stripRemoved hinner hattribute
      (Definitions.mem_preorderAll_of_meets hmem hmeets) hname

/-- A marker counts although it stands in an element that is removed itself, an element is removed
from below another one, and a reference does not bring it back. -/
theorem isStripped_compileTree_nested :
    let named (name value : String) (children : List Tree) : Tree :=
      ⟨name, .ofList [("name", value)], children⟩
    let grammar : Tree := .plain "grammar" [.plain "start" [named "ref" "a" []],
      named "define" "a" [named "element" "a"
        [.plain "optional" [named "ref" "common" []], .plain "text" []]],
      named "define" "common" [named "element" "b" [named "removed" "d" [], named "element" "d" []],
        .plain "choice" [named "element" "d" [], named "element" "e" []]],
      named "define" "d" [named "element" "d" []],
      named "define" "e" [named "element" "e" [named "ref" "common" []]],
      named "removed" "b" []]
    ∃ schema entry, compileTree {} grammar = .ok schema ∧ schema.find? "a" = some entry ∧
      entry.expression.model.tokens = ["e", textToken] ∧ schema.find? "d" = none ∧
      (∀ other entry, schema.find? other = some entry → "b" ∉ entry.expression.model.tokens) := by
  intro named grammar
  have hrun : (fun schema => (schema.find? "a").map fun entry => entry.expression.model.tokens) <$>
      compileTree {} grammar = .ok (some ["e", textToken]) := by cbv
  obtain ⟨schema, hcompile, hfound⟩ := map_eq_ok_iff.mp hrun
  obtain ⟨entry, hentry, htokens⟩ := Option.map_eq_some_iff.mp hfound
  let definitions : Definitions :=
    ⟨grammar.children, .ofList [("a", 0), ("common", 1), ("d", 2), ("e", 3)]⟩
  have hcollect : Definitions.collect grammar = .ok definitions := by cbv
  obtain ⟨-, -, h⟩ := isStripped_compileTree definitions
  obtain ⟨-, h⟩ := h {} grammar grammar schema rfl hcollect hcompile
  refine ⟨schema, entry, hcompile, hentry, htokens, (h "d" (by decide +kernel)).1,
    fun other entry hother hmem => ?_⟩
  exact absurd ((h "b" (by decide +kernel)).2 other entry hother hmem) (by decide)

end Schema

end RelaxSchema
