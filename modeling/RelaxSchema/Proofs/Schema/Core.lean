import RelaxSchema.Schema.Compilation
import RelaxSchema.Proofs.Grammar.ContentModel
import RelaxSchema.Proofs.Grammar.Flattening
import RelaxSchema.Proofs.Schema.Built
import RelaxSchema.Proofs.Schema.Validation

/-!
# Schemas of core grammars

* `Schema.ok_documentVerdict_iff_conforms`: with the schema of a core grammar, the verdict on a
  document is good exactly if the root is the start and each element conforms to the grammar.

What a grammar says about an element is said on the grammar itself (`Element.Conforms`). The proof
follows the content of one definition through the compilation: its flat form stands for the same
tokens, so does its content model, and the automaton reads the words of the model.
-/

namespace RelaxSchema

open List RelaxSchema.Tree

/-- An element conforms to a grammar if it is defined, and its defined content matches its tokens.
An element without tokens conforms as well where text could stand. -/
def Element.Conforms (grammar : Tree) (element : Element) : Prop :=
  ∃ content, grammar.content? element.name = some content ∧
    (Matches grammar content (contentTokens element.children) ∨
      ((∃ tokens, Matches grammar content tokens ∧ textToken ∈ tokens) ∧
        contentTokens element.children = []))

/-- An entry that describes what some patterns stand for. -/
structure ElementSchema.Describes (grammar : Tree) (content : List Tree) (entry : ElementSchema) :
    Prop where
  /-- The expression accepts what the patterns match. -/
  accepts_iff : ∀ tokens, entry.expression.accepts tokens = true ↔ Matches grammar content tokens
  /-- The type is text where text could stand. -/
  type_eq_text_iff : entry.type = .text ↔ ∃ tokens, Matches grammar content tokens ∧
    textToken ∈ tokens
  /-- The content is validated. -/
  validatesContent_type : entry.type.validatesContent = true

/-! ### Entries -/

/-- **The entry for a flat element** describes the content that the element was made from. -/
theorem FlatElement.describes_compile {grammar : Tree} {content : List Tree} {flat : FlatElement}
    (hflat : Definitions.IsFlat grammar content flat) {limits : Limits} {entry : ElementSchema}
    (h : flat.compile limits = .ok entry) : entry.Describes grammar content := by
  obtain ⟨htype, forms, hbody, hforms⟩ := hflat
  obtain ⟨model, hmodel, h⟩ := bind_eq_ok_iff.mp h
  obtain ⟨expression, hexpression, h⟩ := bind_eq_ok_iff.mp h
  obtain ⟨type, hentry, hcreate⟩ := bind_eq_ok_iff.mp h
  obtain ⟨-, -, rfl⟩ := ElementSchema.create_eq_ok_iff.mp hcreate
  rw [FlatElement.model, hbody] at hmodel
  obtain ⟨hlanguage, hne⟩ :
      model.language = words grammar forms ∧ ∀ blocks, model ≠ .interleave blocks :=
    language_contentModel (IsForm.forall_pattern hforms) hmodel
  rw [IsForm.words_eq hforms] at hlanguage
  -- The type is inferred from the automaton, which reads text in some state if a word holds it.
  have hallowed := Expression.isAllowed_iff_exists_mem hexpression hne textToken
  rw [hlanguage] at hallowed
  rw [elementType, htype] at hentry
  obtain rfl := Except.ok.inj hentry
  refine ⟨fun tokens => ?_, ?_, ?_⟩
  · rw [Expression.accepts_iff_mem_language hexpression hne, hlanguage]
    rfl
  · refine Iff.trans ?_ hallowed
    split <;> simp [*]
  · dsimp only
    split <;> rfl

namespace Schema

variable {limits : Limits} {grammar : Tree} {start : String} {schema : Schema}

/-- Each entry of a new name is compiled and entered, and the others stay. -/
theorem find?_foldlM_compileEntry {entries : List (String × FlatElement)}
    (hnodup : (entries.map Prod.fst).Nodup) {done all : Catalogue ElementSchema}
    (h : entries.foldlM (compileEntry limits) done = .ok all) (name : String) :
    (∀ flat, entries.lookup name = some flat →
      ∃ element, all.find? name = some element ∧ flat.compile limits = .ok element) ∧
        (entries.lookup name = none → all.find? name = done.find? name) := by
  induction entries generalizing done with
  | nil =>
    obtain rfl := Except.ok.inj h
    exact ⟨fun flat hflat => by simp at hflat, fun _ => rfl⟩
  | cons entry rest ih =>
    obtain ⟨key, flat⟩ := entry
    rw [foldlM_cons] at h
    obtain ⟨next, hnext, h⟩ := bind_eq_ok_iff.mp h
    obtain ⟨element, helement, hnext⟩ := bind_eq_ok_iff.mp hnext
    obtain rfl := Except.ok.inj hnext
    rw [map_cons, nodup_cons] at hnodup
    obtain ⟨hkey, hnodup⟩ := hnodup
    obtain ⟨hsome, hnone⟩ := ih hnodup h
    rw [lookup_cons]
    by_cases hname : name = key
    · subst hname
      -- No later entry has the name, so the one made now stays.
      have hfound := hnone (lookup_eq_none_of_notMem hkey)
      rw [Catalogue.find?_insert, if_pos rfl] at hfound
      rw [beq_self_eq_true]
      refine ⟨fun other hother => ?_, fun habsent => by simp at habsent⟩
      obtain rfl := Option.some.inj hother
      exact ⟨element, hfound, helement⟩
    · rw [beq_eq_false_iff_ne.mpr hname]
      refine ⟨hsome, fun habsent => ?_⟩
      rw [hnone habsent, Catalogue.find?_insert, if_neg hname]

section Flat

variable {flat flat' : FlatGrammar} {schema' : Schema}

theorem start_ofFlat (h : ofFlat limits flat = .ok schema) : schema.start = flat.start := by
  obtain ⟨_, -, h⟩ := bind_eq_ok_iff.mp h
  exact (ofElements_eq_ok h).2

/-- The entries of a flat grammar are those that are compiled. -/
theorem rel_find?_foldlM_compileEntry {elements : Catalogue ElementSchema}
    (h : flat.elements.entries.foldlM (compileEntry limits) .empty = .ok elements) (name : String) :
    Option.Rel (fun made entry => made.compile limits = .ok entry) (flat.elements.find? name)
      (elements.find? name) := by
  obtain ⟨hsome, hnone⟩ := find?_foldlM_compileEntry flat.elements.nodup h name
  cases hmade : flat.elements.find? name with
  | none =>
    rw [hnone hmade]
    exact .none
  | some made =>
    obtain ⟨entry, hentry, hcompile⟩ := hsome made hmade
    rw [hentry]
    exact .some hcompile

/-- **A flat grammar and its schema have entries of the same names**, and each one is compiled. -/
theorem rel_find?_ofFlat (h : ofFlat limits flat = .ok schema) (name : String) :
    Option.Rel (fun made entry => made.compile limits = .ok entry) (flat.elements.find? name)
      (schema.find? name) := by
  obtain ⟨elements, helements, h⟩ := bind_eq_ok_iff.mp h
  rw [find?, (ofElements_eq_ok h).1]
  exact rel_find?_foldlM_compileEntry helements name

/-- What holds of the entries of flat grammars goes over to those of their schemas. -/
theorem rel_find?_of_ofFlat {R : FlatElement → FlatElement → Prop}
    {S : ElementSchema → ElementSchema → Prop}
    (hcompile : ∀ made made' entry entry', R made made' → made.compile limits = .ok entry →
      made'.compile limits = .ok entry' → S entry entry')
    (h : ofFlat limits flat = .ok schema) (h' : ofFlat limits flat' = .ok schema') {name : String}
    (hrel : Option.Rel R (flat.elements.find? name) (flat'.elements.find? name)) :
    Option.Rel S (schema.find? name) (schema'.find? name) := by
  have hentry := rel_find?_ofFlat h name
  have hentry' := rel_find?_ofFlat h' name
  generalize flat.elements.find? name = made at hrel hentry
  generalize flat'.elements.find? name = made' at hrel hentry'
  generalize schema.find? name = entry at hentry
  generalize schema'.find? name = entry' at hentry'
  cases hrel with
  | none =>
    cases hentry
    cases hentry'
    exact .none
  | some hmade =>
    cases hentry with
    | some hcompiled =>
      cases hentry' with
      | some hcompiled' => exact .some (hcompile _ _ _ _ hmade hcompiled hcompiled')

/-- **The stages of the compilation**: the grammar element is registered and flattened, and then its
entries are compiled. -/
theorem exists_ofFlat_of_compileTree {tree : Tree} (h : compileTree limits tree = .ok schema) :
    ∃ grammar definitions flat, tree.grammar? = some grammar ∧
      Definitions.collect grammar = .ok definitions ∧
      definitions.flatten = .ok flat ∧ ofFlat limits flat = .ok schema := by
  unfold compileTree at h
  split at h
  · cases h
  · rename_i grammar hgrammar
    obtain ⟨definitions, hcollect, h⟩ := bind_eq_ok_iff.mp h
    obtain ⟨flat, hflat, h⟩ := bind_eq_ok_iff.mp h
    exact ⟨grammar, definitions, flat, hgrammar, hcollect, hflat, h⟩

end Flat

/-- **The schema of a core grammar** has an entry for each element that is defined, which describes
its content. -/
theorem rel_find?_compileTree (h : IsCore grammar start)
    (hcompile : compileTree limits grammar = .ok schema) : schema.start = start ∧ ∀ name,
      Option.Rel (ElementSchema.Describes grammar) (grammar.content? name) (schema.find? name) := by
  rw [compileTree, grammar?, if_pos h.name_eq] at hcompile
  obtain ⟨definitions, hcollect, hcompile⟩ := bind_eq_ok_iff.mp hcompile
  obtain ⟨flat, hflat, hschema⟩ := bind_eq_ok_iff.mp hcompile
  obtain ⟨hstart, hflats⟩ := Definitions.flatten_core h hcollect hflat
  refine ⟨(start_ofFlat hschema).trans hstart, fun name => ?_⟩
  have hrel := hflats name
  have hentry := rel_find?_ofFlat hschema name
  generalize grammar.content? name = content at hrel ⊢
  generalize flat.elements.find? name = made at hrel hentry
  generalize schema.find? name = entry at hentry ⊢
  cases hrel with
  | none =>
    cases hentry
    exact .none
  | some hdescribed =>
    cases hentry with
    | some helement => exact .some (FlatElement.describes_compile hdescribed helement)

/-! ### Documents -/

/-- An element is without violations exactly if it conforms. -/
theorem validateElement_eq_nil_iff_conforms
    (hrel : ∀ name,
      Option.Rel (ElementSchema.Describes grammar) (grammar.content? name) (schema.find? name))
    (element : Element) : schema.validateElement element = [] ↔ element.Conforms grammar := by
  have hname := hrel element.name
  rw [Element.Conforms]
  generalize grammar.content? element.name = defined at hname ⊢
  generalize hfound : schema.find? element.name = found at hname
  cases hname with
  | none => simp [validateElement_ne_nil hfound]
  | @some content entry hdescribed =>
    rw [validateElement_of_find? hfound, if_pos hdescribed.validatesContent_type,
      ElementSchema.checkContent_eq_nil_iff, hdescribed.accepts_iff, hdescribed.type_eq_text_iff]
    exact ⟨fun h => ⟨content, rfl, h⟩, fun ⟨_, hsame, h⟩ => Option.some.inj hsame ▸ h⟩

theorem descendsInto_of_validateElement
    (hrel : ∀ name,
      Option.Rel (ElementSchema.Describes grammar) (grammar.content? name) (schema.find? name))
    {element : Element} (hvalid : schema.validateElement element = []) :
    schema.descendsInto element = true := by
  have hname := hrel element.name
  rw [descendsInto]
  generalize grammar.content? element.name = defined at hname
  generalize hfound : schema.find? element.name = found at hname ⊢
  cases hname with
  | none => exact absurd hvalid (validateElement_ne_nil hfound)
  | some hdescribed => exact hdescribed.validatesContent_type

/-- **A document is valid exactly if it follows the grammar.** With the schema of a core grammar
each document gets a verdict, which is good exactly if the root is the start and each element
conforms to the grammar. It is good exactly if no violation is found. -/
theorem ok_documentVerdict_iff_conforms (h : IsCore grammar start)
    (hcompile : compileTree limits grammar = .ok schema) (root : Element) :
    ∃ verdict, schema.documentVerdict (some root) = .ok verdict ∧ verdict.IsExact ∧
      schema.validateDocument (some root) = .ok verdict.violations ∧
      (verdict.ok = true ↔
        root.name = start ∧ ∀ element, root.Contains element → element.Conforms grammar) := by
  obtain ⟨rfl, hrel⟩ := rel_find?_compileTree h hcompile
  refine ⟨schema.rootVerdict root, rfl, isExact_rootVerdict schema root, rfl, ?_⟩
  -- All entries are validated, so a walk that finds nothing has reached every element.
  rw [ok_rootVerdict_iff]
  refine and_congr_right fun _ => ?_
  constructor
  · intro hvalid element hcontains
    have hreaches : schema.Reaches root element :=
      reaches_of_contains (fun _ => descendsInto_of_validateElement hrel) hvalid hcontains
    exact (validateElement_eq_nil_iff_conforms hrel element).mp (hvalid element hreaches)
  · intro hconforms element hreaches
    have hcontains : root.Contains element := contains_of_reaches hreaches
    exact (validateElement_eq_nil_iff_conforms hrel element).mpr (hconforms element hcontains)

/-- An element that holds text and elements of its own name, through a named pattern. -/
theorem ok_documentVerdict_iff_conforms_recursive : ∃ grammar schema, IsCore grammar "a" ∧
    compileTree {} grammar = .ok schema ∧
      ∀ element, Element.Contains ⟨"a", .empty, [.text "x", .element "a" .empty []]⟩ element →
        element.Conforms grammar := by
  let reference (name : String) : Tree := ⟨"ref", .ofList [("name", name)], []⟩
  let content : Tree := ⟨"element", .ofList [("name", "a")], [reference "items"]⟩
  let items : Tree := .plain "zeroOrMore" [.plain "choice" [.plain "text" [], reference "a"]]
  let grammar : Tree := .plain "grammar" [.plain "start" [reference "a"],
    ⟨"define", .ofList [("name", "a")], [content]⟩,
    ⟨"define", .ofList [("name", "items")], [items]⟩]
  have hreference : ∀ {text : Bool} (name : String), Pattern "ref" text (reference name) :=
    fun name => .atom rfl fun child hchild => absurd hchild not_mem_nil
  have hitems : Pattern "ref" false items := by
    refine .repetition rfl (cons_ne_nil _ _) (forall_mem_singleton.mpr ?_)
    exact .choice rfl (cons_ne_nil _ _)
      (forall_mem_cons.mpr ⟨.text rfl rfl, forall_mem_singleton.mpr (hreference "a")⟩)
  have hcore : IsCore grammar "a" := by
    refine ⟨rfl, ⟨[], _, _, rfl, ⟨rfl, _, rfl, rfl, rfl, hreference "a"⟩, ?_⟩, by decide, by decide⟩
    refine forall_mem_cons.mpr ⟨⟨rfl, "a", rfl, ?_⟩,
      forall_mem_singleton.mpr ⟨rfl, "items", rfl, ?_⟩⟩
    · exact .element rfl rfl rfl (forall_mem_singleton.mpr (hreference "items"))
    · exact .pattern rfl hitems
  let root : Element := ⟨"a", .empty, [.text "x", .element "a" .empty []]⟩
  have hrun : (fun schema => (schema.rootVerdict root).ok) <$> compileTree {} grammar =
      .ok true := by cbv
  obtain ⟨schema, hcompile, hok⟩ := map_eq_ok_iff.mp hrun
  obtain ⟨verdict, hverdict, -, -, hiff⟩ := ok_documentVerdict_iff_conforms hcore hcompile root
  obtain rfl : schema.rootVerdict root = verdict := Except.ok.inj hverdict
  exact ⟨grammar, schema, hcore, hcompile, (hiff.mp hok).2⟩

/-- An element without tokens need not match its content: text may be missing. -/
theorem not_ok_documentVerdict_iff_matches : ¬ ∀ (limits : Limits) (grammar : Tree) (start : String)
    (schema : Schema), IsCore grammar start → grammar.define? textToken = none →
      compileTree limits grammar = .ok schema → ∀ (root : Element) (verdict : Verdict),
        schema.documentVerdict (some root) = .ok verdict → (verdict.ok = true ↔ root.name = start ∧
          ∀ element, root.Contains element →
            ∃ content, grammar.content? element.name = some content ∧
            Matches grammar content (contentTokens element.children)) := by
  intro hclaim
  let element : Tree := ⟨"element", .ofList [("name", "a")], [.plain "text" []]⟩
  let grammar : Tree := .plain "grammar" [.plain "start" [⟨"ref", .ofList [("name", "a")], []⟩],
    ⟨"define", .ofList [("name", "a")], [element]⟩]
  have hreference : Pattern "ref" false ⟨"ref", .ofList [("name", "a")], []⟩ :=
    .atom rfl fun child hchild => absurd hchild not_mem_nil
  have hcore : IsCore grammar "a" := by
    refine ⟨rfl, ⟨[], _, _, rfl, ⟨rfl, _, rfl, rfl, rfl, hreference⟩, ?_⟩, by decide, by decide⟩
    refine forall_mem_singleton.mpr ⟨rfl, "a", rfl, ?_⟩
    exact .element rfl rfl rfl (forall_mem_singleton.mpr (.text rfl rfl))
  have hrun : (fun schema => (schema.rootVerdict ⟨"a", .empty, []⟩).ok) <$> compileTree {} grammar
      = .ok true := by cbv
  obtain ⟨schema, hcompile, hok⟩ := map_eq_ok_iff.mp hrun
  obtain ⟨-, hall⟩ := (hclaim {} grammar "a" schema hcore (by decide) hcompile _ _ rfl).mp hok
  obtain ⟨content, hcontent, hmatches⟩ := hall _ (.self _)
  obtain rfl : [.plain "text" []] = content := Option.some.inj hcontent
  have hcases := matches_singleton hmatches
  simp [plain, contentTokens] at hcases

end Schema

end RelaxSchema
