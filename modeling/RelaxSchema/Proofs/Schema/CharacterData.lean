import RelaxSchema.Proofs.Content.RepeatedText
import RelaxSchema.Proofs.Schema.Built
import RelaxSchema.Proofs.Schema.Validation

/-!
# Character data in pieces

Character data may be split into texts and CDATA sections. Each piece is a token, so the pieces may
be refused where their characters in one text are accepted. When this does not happen:

* `Schema.joinsData_iff`: where the accepted tokens do not tell two texts in a row from one;
* `Schema.joinsData_compileTree`: for grammars, what the blocks of a content model have to be like.
-/

namespace RelaxSchema

open List

/-- Whether a node is character data that is validated: text that is not blank, or a CDATA
section. -/
def Node.isData (node : Node) : Bool := node.characters?.isSome && node.token?.isSome

/-- The characters of some nodes. -/
def Node.joined (nodes : List Node) : String := String.join (nodes.filterMap Node.characters?)

/-! ### Tokens -/

/-- Each piece of character data is a token. -/
theorem contentTokens_eq_replicate {data : List Node} (h : ∀ node ∈ data, node.isData = true) :
    contentTokens data = replicate data.length textToken := by
  induction data with
  | nil => rfl
  | cons node rest ih =>
    obtain ⟨hnode, hrest⟩ := forall_mem_cons.mp h
    rw [length_cons, replicate_succ, ← ih hrest]
    cases node with
    | element name attributes children => simp [Node.isData, Node.characters?] at hnode
    | cdata content => rfl
    | text content =>
      have hblank : isBlank content = false := by
        simpa [Node.isData, Node.characters?, Node.token?] using hnode
      rw [contentTokens, filterMap_cons, Node.token?, hblank]
      rfl

theorem contentTokens_append (first second : List Node) :
    contentTokens (first ++ second) = contentTokens first ++ contentTokens second :=
  filterMap_append

theorem contentTokens_text_cons {content : String} (h : isBlank content = false)
    (nodes : List Node) :
    contentTokens (.text content :: nodes) = textToken :: contentTokens nodes := by
  rw [contentTokens, filterMap_cons, Node.token?, h]
  rfl

/-- There are nodes for any tokens. -/
theorem contentTokens_map_element (tokens : List String) :
    contentTokens (tokens.map fun name => .element name .empty []) = tokens := by
  induction tokens with
  | nil => rfl
  | cons token rest ih =>
    rw [map_cons, contentTokens, filterMap_cons]
    exact congrArg (token :: ·) ih

namespace Schema

/-- Whether it makes no difference to the validity of elements of a name if adjacent pieces of
character data are joined to one text. -/
def JoinsData (schema : Schema) (name : String) : Prop :=
  ∀ attributes before data after, (∀ node ∈ data, node.isData = true) →
    isBlank (Node.joined data) = false →
    (schema.elementVerdict ⟨name, attributes, before ++ data ++ after⟩).ok =
      (schema.elementVerdict ⟨name, attributes, before ++ .text (Node.joined data) :: after⟩).ok

variable {schema : Schema} {name : String}

/-- Content with a token is good if the expression accepts it. -/
theorem ok_elementVerdict_iff {entry : ElementSchema} (hfind : schema.find? name = some entry)
    (hvalidates : entry.type.validatesContent = true) (attributes : Catalogue String)
    {nodes : List Node} {tokens : List String} (htokens : contentTokens nodes = tokens)
    (hne : tokens ≠ []) :
    (schema.elementVerdict ⟨name, attributes, nodes⟩).ok = true ↔
      tokens ∈ entry.expression.language := by
  rw [ok_elementVerdict_of_find? hfind hvalidates, htokens, or_iff_left fun hempty => hne hempty.2]
  rfl

/-- **Character data may be joined** exactly where the accepted tokens do not tell two texts in a
row from one. -/
theorem joinsData_iff : schema.JoinsData name ↔ ∀ entry, schema.find? name = some entry →
    entry.type.validatesContent = true → IsBlindTo textToken entry.expression.language := by
  constructor
  · intro hjoins entry hfind hvalidates before after
    -- Two CDATA sections among elements that stand for the other tokens.
    let node (token : String) : Node := .element token .empty []
    have hverdicts := hjoins .empty (before.map node) [.cdata "x",
      .cdata "x"] (after.map node) (by decide) (by decide)
    have htwice : contentTokens (before.map node ++ [.cdata "x", .cdata "x"] ++ after.map node) =
        before ++ textToken :: textToken :: after := by
      rw [contentTokens_append, contentTokens_append, contentTokens_map_element,
        contentTokens_map_element, append_assoc]
      rfl
    have honce : contentTokens (before.map node ++ .text (Node.joined [.cdata "x", .cdata "x"]) ::
        after.map node) = before ++ textToken :: after := by
      rw [contentTokens_append, contentTokens_text_cons (by decide), contentTokens_map_element,
        contentTokens_map_element]
    rw [Bool.eq_iff_iff, ok_elementVerdict_iff hfind hvalidates _ htwice (by simp),
      ok_elementVerdict_iff hfind hvalidates _ honce (by simp)] at hverdicts
    exact hverdicts
  · intro hblind attributes before data after hdata hjoined
    by_cases hdescends : schema.descendsInto ⟨name, attributes, before ++ data ++ after⟩ = true
    · obtain ⟨entry, hfind, hvalidates⟩ := (Option.any_eq_true _ _).mp hdescends
      obtain ⟨more, hlength⟩ : ∃ more, data.length = more + 1 := by
        cases data with
        | nil => cases hjoined
        | cons node rest => exact ⟨rest.length, rfl⟩
      have hsplit : contentTokens (before ++ data ++ after) =
          contentTokens before ++ replicate (more + 1) textToken ++ contentTokens after := by
        rw [contentTokens_append, contentTokens_append, contentTokens_eq_replicate hdata, hlength]
      have honce : contentTokens (before ++ .text (Node.joined data) :: after) =
          contentTokens before ++ textToken :: contentTokens after := by
        rw [contentTokens_append, contentTokens_text_cons hjoined]
      rw [Bool.eq_iff_iff, ok_elementVerdict_iff hfind hvalidates _ hsplit (by simp),
        ok_elementVerdict_iff hfind hvalidates _ honce (by simp)]
      exact (hblind entry hfind hvalidates).mem_replicate_iff _ _ more
    · exact congrArg Verdict.ok (elementVerdict_congr rfl fun h => absurd h hdescends)

/-- **Where character data may be joined.** In a schema that a grammar compiles to, it may exactly
where the accepted tokens do not tell two texts in a row from one. For this it is enough that no
block of the content model does, and if no blocks share a token it is needed. A block does not in
which each text stands in a repetition, with nothing but choices, options and other repetitions in
between. -/
theorem joinsData_compileTree {limits : Limits} {tree : Tree}
    (h : compileTree limits tree = .ok schema) (name : String) :
    (schema.JoinsData name ↔ ∀ entry, schema.find? name = some entry →
      entry.type.validatesContent = true → IsBlindTo textToken entry.expression.language) ∧
    (∀ entry, schema.find? name = some entry → entry.type.validatesContent = true →
      let blocks := entry.expression.model.parts
      ((∀ block ∈ blocks, IsBlindTo textToken block.language) → schema.JoinsData name) ∧
      ((blocks.Pairwise fun first second =>
        ∀ token ∈ first.occurrences, token ∉ second.occurrences) →
        schema.JoinsData name → ∀ block ∈ blocks, IsBlindTo textToken block.language)) ∧
    ∀ model : Model, model.ignoresRepeatedText = true → IsBlindTo textToken model.language := by
  refine ⟨joinsData_iff, fun entry hfind hvalidates => ?_,
    fun model => Model.isBlindTo_of_ignoresRepeatedText⟩
  obtain ⟨-, hbuilt⟩ := isBuilt_compileTree h _ (Catalogue.mem_entries_of_find? hfind)
  have hcompile := hbuilt.compile_eq
  constructor
  · intro hblocks
    refine joinsData_iff.mpr fun other hother _ => ?_
    obtain rfl := Option.some.inj (hfind.symm.trans hother)
    exact Expression.isBlindTo_language hcompile hblocks
  · intro hdisjoint hjoins
    have hblind := joinsData_iff.mp hjoins entry hfind hvalidates
    exact (Expression.isBlindTo_language_iff hcompile hdisjoint).mp hblind

/-- Text in a repetition may be joined, besides unordered content of another kind, and text alone
may not. -/
theorem joinsData_compileTree_unordered :
    let reference (name : String) : Tree := ⟨"ref", .ofList [("name", name)], []⟩
    let element (name : String) (children : List Tree) : Tree :=
      ⟨"define", .ofList [("name", name)], [⟨"element", .ofList [("name", name)], children⟩]⟩
    let grammar : Tree := .plain "grammar" [.plain "start" [reference "p"],
      element "p" [.plain "interleave" [reference "t",
        .plain "zeroOrMore" [.plain "choice" [.plain "text" [], reference "b"]]]],
      element "t" [.plain "text" []], element "b" []]
    ∃ schema, compileTree {} grammar = .ok schema ∧ schema.JoinsData "p" ∧
      ¬ schema.JoinsData "t" := by
  intro reference element grammar
  have hentries : (fun schema : Schema => ["p", "t"].map fun name =>
      (schema.find? name).map fun entry =>
        (entry.type, entry.expression.model)) <$> compileTree {} grammar =
    .ok [some (.text, .interleave [.token "t", .kleene (.choice [.token textToken, .token "b"])]),
      some (.text, .token textToken)] := by cbv
  obtain ⟨schema, hcompile, hentries⟩ := map_eq_ok_iff.mp hentries
  obtain ⟨hp, hrest⟩ := cons.inj hentries
  obtain ⟨ht, -⟩ := cons.inj hrest
  obtain ⟨entry, hfind, hentry⟩ := Option.map_eq_some_iff.mp hp
  obtain ⟨entry', hfind', hentry'⟩ := Option.map_eq_some_iff.mp ht
  obtain ⟨htype, hmodel⟩ := Prod.mk.inj hentry
  obtain ⟨htype', hmodel'⟩ := Prod.mk.inj hentry'
  have hjoins := (joinsData_compileTree hcompile "p").2.1 entry hfind (by rw [htype]; rfl)
  have hrefuses := (joinsData_compileTree hcompile "t").2.1 entry' hfind' (by rw [htype']; rfl)
  have hrepeated := (joinsData_compileTree hcompile "p").2.2
  refine ⟨schema, hcompile, hjoins.1 ?_, fun hjoins' => ?_⟩
  · rw [hmodel]
    exact forall_mem_cons.mpr ⟨hrepeated _ rfl, forall_mem_singleton.mpr (hrepeated _ rfl)⟩
  · rw [hmodel'] at hrefuses
    have hblind := hrefuses.2 (pairwise_singleton _ _) hjoins' _ mem_cons_self
    have htwice : [textToken, textToken] ∈ (Model.token textToken).language :=
      (hblind [] []).mpr rfl
    cases htwice

/-- **Elsewhere joining makes a difference**: a text is accepted but not a text and a CDATA section,
and a CDATA section is accepted where blank text is none. -/
theorem joinsData_compileTree_not_all :
    let reference (name : String) : Tree := ⟨"ref", .ofList [("name", name)], []⟩
    let element (name : String) (children : List Tree) : Tree :=
      ⟨"define", .ofList [("name", name)], [⟨"element", .ofList [("name", name)], children⟩]⟩
    let grammar : Tree := .plain "grammar" [.plain "start" [reference "p"],
      element "p" [.plain "text" []], element "q" [reference "b", .plain "text" []], element "b" []]
    let b : Node := .element "b" .empty []
    ∃ schema, compileTree {} grammar = .ok schema ∧
      (schema.elementVerdict ⟨"p", .empty, [.text "x", .cdata "y"]⟩).ok = false ∧
      (schema.elementVerdict ⟨"p", .empty, [.text "xy"]⟩).ok = true ∧
      (schema.elementVerdict ⟨"q", .empty, [b, .cdata " "]⟩).ok = true ∧
      (schema.elementVerdict ⟨"q", .empty, [b, .text " "]⟩).ok = false := by
  intro reference element grammar b
  let elements : List Element := [⟨"p", .empty, [.text "x", .cdata "y"]⟩,
    ⟨"p", .empty, [.text "xy"]⟩, ⟨"q", .empty, [b, .cdata " "]⟩, ⟨"q", .empty, [b, .text " "]⟩]
  have hverdicts : (fun schema : Schema => elements.map fun element =>
    (schema.elementVerdict element).ok) <$>
      compileTree {} grammar = .ok [false, true, true, false] := by cbv
  obtain ⟨schema, hcompile, hverdicts⟩ := map_eq_ok_iff.mp hverdicts
  exact ⟨schema, hcompile, by simpa [elements] using hverdicts⟩

end Schema

end RelaxSchema
