import RelaxSchema.Proofs.Content.Equivalence
import RelaxSchema.Proofs.Grammar.Grouping
import RelaxSchema.Proofs.Schema.Core

/-!
# Schemas of grammars with a definition put in a group

* `Schema.rel_accepts_compileTree`: a reference stands for the whole body of its definition, so it
  makes no difference to what elements accept that the body is put in a group.

This holds where nothing that a reference is replaced by could be told apart from the group
(`Definitions.IsGroupable`). The two grammars are followed through the compilation side by side.
-/

namespace RelaxSchema

open List RelaxSchema.Tree

/-- Flat elements of the same name whose content stands for the same words. -/
structure FlatElement.Agree (flat flat' : FlatElement) : Prop where
  /-- The names are the same. -/
  name_eq : flat.name = flat'.name
  /-- Both have content that stands for the same words, or neither has any. -/
  rel_body : Option.Rel (fun body body' => NormalForm.SameWords body.children body'.children)
    flat.body flat'.body

namespace Definitions

/-- What the body of a definition becomes holds no attribute, and no reference to the definition
stands in a tight node of the content of an element. -/
def IsGroupable (definitions : Definitions) (name : String) : Prop :=
  ∀ body run, definitions.bodies.find? name = some body →
    Expansion.Inlines definitions.bodies body run →
      (∀ block ∈ run, block.mentions "attribute" = false) ∧
        ∀ element ∈ definitions.elements,
          Expansion.IsLoose definitions.bodies name run element.children

variable {definitions definitions' : Definitions} {position : Nat} {name : String}

/-! ### Markers and removed names -/

theorem DifferAt.findAll_eq (h : DifferAt position definitions definitions') {marker : String}
    (hdefine : marker ≠ "define") (hgroup : marker ≠ "group") :
    definitions'.toTree.findAll marker = definitions.toTree.findAll marker :=
  h.groupedAt.filter_preorderAll hdefine hgroup

theorem DifferAt.markedNames_eq (h : DifferAt position definitions definitions') {marker : String}
    (hdefine : marker ≠ "define") (hgroup : marker ≠ "group") :
    definitions'.toTree.markedNames marker = definitions.toTree.markedNames marker := by
  rw [markedNames, markedNames, h.findAll_eq hdefine hgroup]

theorem DifferAt.stripRemoved (h : DifferAt position definitions definitions') :
    DifferAt position definitions.stripRemoved definitions'.stripRemoved := by
  refine ⟨h.positions_eq, ?_⟩
  rw [Definitions.stripRemoved, Definitions.stripRemoved, h.markedNames_eq (by decide) (by decide)]
  exact h.groupedAt.strip

theorem DifferAt.elements_eq (h : DifferAt position definitions definitions') :
    definitions'.elements = definitions.elements :=
  h.groupedAt.elementsFrom_eq h.positions_eq 0

/-! ### Flat elements -/

/-- The content of an element stands for the same words, whether the body is in a group or not. -/
theorem agree_flattenElement {bodies bodies' : Catalogue (List Tree)} {front back run : List Tree}
    (hgrouped : Expansion.AreGrouped bodies bodies' name front back)
    (hrun : ∀ inlined, Expansion.Inlines bodies (front ++ back) inlined → inlined = run)
    (hattributes : ∀ block ∈ run, block.mentions "attribute" = false) {element : Tree}
    (hloose : Expansion.Inlines bodies (front ++ back) run →
      Expansion.IsLoose bodies name run element.children)
    {notImplemented : List String} {flat flat' : FlatElement}
    (h : flattenElement bodies notImplemented element = .ok flat)
    (h' : flattenElement bodies' notImplemented element = .ok flat') : flat.Agree flat' := by
  unfold flattenElement at h h'
  split at h
  · simp at h
  · rename_i label hname
    simp only [hname] at h'
    split at h
    · rename_i hmarked
      rw [if_pos hmarked] at h'
      obtain rfl := Except.ok.inj h
      obtain rfl := Except.ok.inj h'
      exact ⟨rfl, .none⟩
    · rename_i hmarked
      rw [if_neg hmarked] at h'
      obtain ⟨blocks, hblocks, h⟩ := bind_eq_ok_iff.mp h
      obtain ⟨blocks', hblocks', h'⟩ := bind_eq_ok_iff.mp h'
      obtain rfl := Except.ok.inj h
      obtain rfl := Except.ok.inj h'
      have hregrouped : Expansion.Regrouped run true blocks blocks' :=
        (Expansion.inlines_of_expandContent hblocks).regrouped hgrouped hrun
          (Expansion.inlines_of_expandContent hblocks') hloose fun _ htrue =>
            absurd htrue.symm Bool.false_ne_true
      exact ⟨rfl, .some (NormalForm.Regrouped.sameWords (hregrouped.filter_attributes hattributes))⟩

/-- Elements that are related are entered alike. -/
theorem rel_foldl_enter {R : FlatElement → FlatElement → Prop}
    (hname : ∀ flat flat', R flat flat' → flat.name = flat'.name) {flats flats' : List FlatElement}
    (h : Forall₂ R flats flats') (state state' : Catalogue FlatElement × List String)
    (hstate : ∀ name, Option.Rel R (state.1.find? name) (state'.1.find? name)) (name : String) :
    Option.Rel R ((flats.foldl enter state).1.find? name)
      ((flats'.foldl enter state').1.find? name) := by
  induction h generalizing state state' with
  | nil => exact hstate name
  | cons hflat _ ih =>
    refine ih _ _ fun other => ?_
    rw [enter, enter, Catalogue.find?_insert, Catalogue.find?_insert, hname _ _ hflat]
    split
    · exact .some hflat
    · exact hstate other

/-- A declaration gives the type to both elements. -/
theorem exists_assignType_rel {R : FlatElement → FlatElement → Prop}
    (htyped : ∀ flat flat' type, R flat flat' →
      R { flat with type := type } { flat' with type := type })
    {entries entries' next : Catalogue FlatElement} {declaration declaration' : Tree}
    (hsame : declaration.attributes = declaration'.attributes)
    (h : ∀ name, Option.Rel R (entries.find? name) (entries'.find? name))
    (hnext : assignType entries declaration = .ok next) :
    ∃ next', assignType entries' declaration' = .ok next' ∧
      ∀ name, Option.Rel R (next.find? name) (next'.find? name) := by
  obtain ⟨label, type, flat, hlabel, htype, hfound, rfl⟩ := assignType_eq_ok_iff.mp hnext
  obtain ⟨flat', hfound', hflat⟩ : ∃ flat', entries'.find? label = some flat' ∧ R flat flat' := by
    have hrel := h label
    rw [hfound] at hrel
    generalize entries'.find? label = found at hrel
    cases hrel with
    | some hflat => exact ⟨_, rfl, hflat⟩
  rw [attribute?, hsame] at hlabel htype
  refine ⟨_, assignType_eq_ok_iff.mpr ⟨label, type, flat', hlabel, htype, hfound', rfl⟩,
    fun name => ?_⟩
  rw [Catalogue.find?_insert, Catalogue.find?_insert]
  split
  · exact .some (htyped flat flat' (some type) hflat)
  · exact h name

/-- **The flat forms of the two grammars agree.** -/
theorem DifferAt.rel_flatten (h : DifferAt position definitions definitions')
    (hplaced : definitions.ArePlaced) (hapart : definitions.AreApart)
    (hposition : definitions.positions.find? name = some position)
    (hgroupable : definitions.stripRemoved.IsGroupable name) {flat flat' : FlatGrammar}
    (hflat : definitions.flatten = .ok flat) (hflat' : definitions'.flatten = .ok flat')
    (label : String) :
    Option.Rel FlatElement.Agree (flat.elements.find? label) (flat'.elements.find? label) := by
  have hstripped := h.stripRemoved
  obtain ⟨front, back, hgrouped⟩ :=
    hstripped.areGrouped_bodies hplaced.stripRemoved hapart hposition
  rw [flatten] at hflat hflat'
  obtain ⟨flats, hflats, hflat⟩ := bind_eq_ok_iff.mp hflat
  obtain ⟨entries, hentries, hflat⟩ := bind_eq_ok_iff.mp hflat
  obtain ⟨start, hstart, hflat⟩ := bind_eq_ok_iff.mp hflat
  obtain rfl := Except.ok.inj hflat
  obtain ⟨flats', hflats', hflat'⟩ := bind_eq_ok_iff.mp hflat'
  obtain ⟨entries', hentries', hflat'⟩ := bind_eq_ok_iff.mp hflat'
  obtain ⟨start', hstart', hflat'⟩ := bind_eq_ok_iff.mp hflat'
  obtain rfl := Except.ok.inj hflat'
  rw [hstripped.elements_eq, hstripped.markedNames_eq (by decide) (by decide)] at hflats'
  rw [hstripped.findAll_eq (by decide) (by decide)] at hentries'
  -- If references to the definition cannot be replaced at all, none stands in any content.
  obtain ⟨run, hrun, hfound⟩ : ∃ run, (∀ inlined,
      Expansion.Inlines definitions.stripRemoved.bodies (front ++ back) inlined → inlined = run) ∧
        (Expansion.Inlines definitions.stripRemoved.bodies (front ++ back) run ∨ run = []) := by
    by_cases hexists : ∃ run, Expansion.Inlines definitions.stripRemoved.bodies (front ++ back) run
    · obtain ⟨run, hinlines⟩ := hexists
      exact ⟨run, fun inlined hinlined => hinlined.unique hinlines, .inl hinlines⟩
    · exact ⟨[], fun inlined hinlined => absurd ⟨inlined, hinlined⟩ hexists, .inr rfl⟩
  have hattributes : ∀ block ∈ run, block.mentions "attribute" = false := by
    rcases hfound with hinlines | rfl
    · exact (hgroupable _ _ hgrouped.find?_eq hinlines).1
    · exact fun block hblock => absurd hblock not_mem_nil
  have hall : Forall₂ FlatElement.Agree flats flats' := by
    refine forall₂_of_forall₂ (mapM_eq_ok_iff.mp hflats) (mapM_eq_ok_iff.mp hflats') ?_
    intro element helement first second hfirst hsecond
    exact agree_flattenElement hgrouped hrun hattributes
      (fun hinlines => (hgroupable _ _ hgrouped.find?_eq hinlines).2 element helement) hfirst
      hsecond
  have hentered :=
    rel_foldl_enter (fun _ _ hflat => hflat.name_eq) hall (.empty, []) (.empty, []) fun _ => .none
  refine foldlM_relation (f := assignType) (g := assignType) (R := fun entries entries' => ∀ name,
    Option.Rel FlatElement.Agree (entries.find? name) (entries'.find? name)) ?_ hentered hentries
      hentries' label
  intro entries entries' declaration _ next next' hrel hnext hnext'
  obtain ⟨other, hother, hrelNext⟩ := exists_assignType_rel
    (fun _ _ _ hflat => ⟨hflat.name_eq, hflat.rel_body⟩) rfl hrel hnext
  obtain rfl := Except.ok.inj (hother.symm.trans hnext')
  exact hrelNext

end Definitions

/-! ### Schemas -/

/-- Elements that agree have expressions that accept the same tokens. -/
theorem FlatElement.Agree.accepts_eq {flat flat' : FlatElement} (h : flat.Agree flat')
    {limits : Limits} {entry entry' : ElementSchema} (hentry : flat.compile limits = .ok entry)
    (hentry' : flat'.compile limits = .ok entry') (tokens : List String) :
    entry.expression.accepts tokens = entry'.expression.accepts tokens := by
  obtain ⟨model, hmodel, hentry⟩ := bind_eq_ok_iff.mp hentry
  obtain ⟨expression, hexpression, hentry⟩ := bind_eq_ok_iff.mp hentry
  obtain ⟨type, -, hcreate⟩ := bind_eq_ok_iff.mp hentry
  obtain ⟨-, -, rfl⟩ := ElementSchema.create_eq_ok_iff.mp hcreate
  obtain ⟨model', hmodel', hentry'⟩ := bind_eq_ok_iff.mp hentry'
  obtain ⟨expression', hexpression', hentry'⟩ := bind_eq_ok_iff.mp hentry'
  obtain ⟨type', -, hcreate'⟩ := bind_eq_ok_iff.mp hentry'
  obtain ⟨-, -, rfl⟩ := ElementSchema.create_eq_ok_iff.mp hcreate'
  have hbody := h.rel_body
  rw [FlatElement.model] at hmodel hmodel'
  generalize flat.body = body at hbody hmodel
  generalize flat'.body = body' at hbody hmodel'
  cases hbody with
  | none =>
    obtain rfl := Except.ok.inj hmodel
    obtain rfl := Except.ok.inj hmodel'
    exact Expression.accepts_congr hexpression hexpression' rfl rfl tokens
  | some hsame =>
    refine Expression.accepts_congr hexpression hexpression' ?_ ?_ tokens
    · rw [language_of_contentModel hmodel, language_of_contentModel hmodel',
        hsame.sequenceLanguage_eq]
    · rw [interleaves_of_contentModel hmodel, interleaves_of_contentModel hmodel',
        hsame.interleavesAll_eq]

namespace Schema

/-- **A reference stands for the whole body of its definition.** If the children of a registered
definition are put in a group, each element accepts the same tokens as before. -/
theorem rel_accepts_compileTree {limits : Limits} {tree tree' grammar grammar' : Tree}
    {definitions : Definitions} {name : String} {position : Nat} {schema schema' : Schema}
    (hgrammar : tree.grammar? = some grammar) (hgrammar' : tree'.grammar? = some grammar')
    (hcollect : Definitions.collect grammar = .ok definitions)
    (hposition : definitions.positions.find? name = some position)
    (hgrouped : Definitions.GroupedAt position grammar.children grammar'.children)
    (hgroupable : definitions.stripRemoved.IsGroupable name)
    (hcompile : compileTree limits tree = .ok schema)
    (hcompile' : compileTree limits tree' = .ok schema') (label : String) :
    Option.Rel (fun entry entry' =>
      ∀ tokens, entry.expression.accepts tokens = entry'.expression.accepts tokens)
      (schema.find? label) (schema'.find? label) := by
  rw [compileTree, hgrammar] at hcompile
  rw [compileTree, hgrammar'] at hcompile'
  obtain ⟨_, hcollected, hcompile⟩ := bind_eq_ok_iff.mp hcompile
  obtain rfl := Except.ok.inj (hcollect.symm.trans hcollected)
  obtain ⟨flat, hflat, hcompile⟩ := bind_eq_ok_iff.mp hcompile
  obtain ⟨elements, helements, hcompile⟩ := bind_eq_ok_iff.mp hcompile
  obtain ⟨definitions', hcollect', hcompile'⟩ := bind_eq_ok_iff.mp hcompile'
  obtain ⟨flat', hflat', hcompile'⟩ := bind_eq_ok_iff.mp hcompile'
  obtain ⟨elements', helements', hcompile'⟩ := bind_eq_ok_iff.mp hcompile'
  have hrel := (Definitions.differAt_collect hgrouped hcollect hcollect' hposition).rel_flatten
    (Definitions.arePlaced_collect hcollect) (Definitions.areApart_collect hcollect) hposition
    hgroupable hflat hflat' label
  obtain ⟨hsome, hnone⟩ := find?_foldlM_compileEntry flat.elements.nodup helements label
  obtain ⟨hsome', hnone'⟩ := find?_foldlM_compileEntry flat'.elements.nodup helements' label
  rw [find?, find?, (ofElements_eq_ok hcompile).1, (ofElements_eq_ok hcompile').1]
  generalize hfind : flat.elements.find? label = found at hrel
  generalize hfind' : flat'.elements.find? label = found' at hrel
  cases hrel with
  | none =>
    rw [hnone hfind, hnone' hfind']
    exact .none
  | some hagree =>
    obtain ⟨entry, hentry, hcompiled⟩ := hsome _ hfind
    obtain ⟨entry', hentry', hcompiled'⟩ := hsome' _ hfind'
    rw [hentry, hentry']
    exact .some fun tokens => hagree.accepts_eq hcompiled hcompiled' tokens

/-- A definition of two children that is referred to in a loop through another definition. -/
theorem rel_accepts_compileTree_repeated :
    let reference (name : String) : Tree := ⟨"ref", .ofList [("name", name)], []⟩
    let define (name : String) (children : List Tree) : Tree :=
      ⟨"define", .ofList [("name", name)], children⟩
    let element (name : String) (children : List Tree) : Tree :=
      define name [⟨"element", .ofList [("name", name)], children⟩]
    let grammar (body : List Tree) : Tree := .plain "grammar" [.plain "start" [reference "list"],
      element "list" [.plain "optional" [reference "pair"], .plain "oneOrMore" [reference "pairs"]],
      define "pairs" [reference "pair"], define "pair" body, element "key" [], element "value" []]
    ∃ schema schema', compileTree {} (grammar [reference "key", reference "value"]) = .ok schema ∧
      compileTree {} (grammar [.plain "group" [reference "key", reference "value"]]) = .ok schema' ∧
      Option.Rel (fun entry entry' =>
        ∀ tokens, entry.expression.accepts tokens = entry'.expression.accepts tokens)
        (schema.find? "list") (schema'.find? "list") := by
  intro reference define element grammar
  let body : List Tree := [reference "key", reference "value"]
  let run : List Tree := [Expansion.leaf "key", Expansion.leaf "value"]
  have hschema : Schema.start <$> compileTree {} (grammar body) = .ok "list" := by cbv
  have hschema' : Schema.start <$> compileTree {} (grammar [.plain "group" body]) = .ok "list" := by
    cbv
  obtain ⟨schema, hcompile, -⟩ := map_eq_ok_iff.mp hschema
  obtain ⟨schema', hcompile', -⟩ := map_eq_ok_iff.mp hschema'
  let definitions : Definitions := ⟨(grammar body).children,
    ((((Catalogue.empty.insert "list" 0).insert "pairs" 1).insert "pair" 2).insert "key" 3).insert
      "value" 4⟩
  have hcollect : Definitions.collect (grammar body) = .ok definitions := rfl
  have hgrouped : Definitions.GroupedAt 2 (grammar body).children
      (grammar [.plain "group" body]).children := by
    refine .skip rfl (.next rfl (.next rfl (.here rfl (append_nil body).symm ?_)))
    simp [body, reference]
  have hbody : definitions.stripRemoved.bodies.find? "pair" = some body := rfl
  have hrun : Expansion.Inlines definitions.stripRemoved.bodies body run :=
    .ref ⟨rfl, rfl⟩ rfl (.element rfl rfl .nil) (.ref ⟨rfl, rfl⟩ rfl (.element rfl rfl .nil) .nil)
  have hnames : (∀ entry ∈ definitions.stripRemoved.bodies.entries, ∀ node ∈ preorderAll entry.2,
      node.name ≠ "choice" ∧ node.name ≠ "interleave") ∧
      ∀ element ∈ definitions.stripRemoved.elements, ∀ node ∈ preorderAll element.children,
        node.name ≠ "choice" ∧ node.name ≠ "interleave" := by decide
  have hgroupable : definitions.stripRemoved.IsGroupable "pair" := by
    intro found inlined hfound hinlined
    obtain rfl := Option.some.inj (hbody.symm.trans hfound)
    obtain rfl := hinlined.unique hrun
    refine ⟨by decide, fun element helement node hnode htight => ?_⟩
    have hnode : node.name ≠ "choice" ∧ node.name ≠ "interleave" := by
      rcases hnode.mem_preorderAll with hmem | ⟨entry, hentry, hmem⟩
      · exact hnames.2 element helement node hmem
      · exact hnames.1 entry hentry node hmem
    have hleft : (NormalForm.normalise run).isEmpty = false := rfl
    have htext : NormalForm.isBareText run = false := rfl
    simp [Expansion.isTight, hnode, hleft, htext] at htight
  exact ⟨schema, schema', hcompile, hcompile', rel_accepts_compileTree rfl rfl hcollect rfl hgrouped
    hgroupable hcompile hcompile' "list"⟩

/-- Grammars of which one accepts tokens in an element that the other one refuses have schemas that
differ. -/
theorem exists_not_rel_accepts {limits : Limits} {tree tree' : Tree} {label : String}
    {tokens : List String} {outcome : Bool} (hbefore : (compileTree limits tree >>= fun schema =>
      .ok ((schema.find? label).map fun entry => entry.expression.accepts tokens)) = .ok
    (some outcome))
    (hafter : (compileTree limits tree' >>= fun schema =>
      .ok ((schema.find? label).map fun entry => entry.expression.accepts tokens)) = .ok
    (some !outcome)) :
    ∃ schema schema', compileTree limits tree = .ok schema ∧
      compileTree limits tree' = .ok schema' ∧ ¬ Option.Rel (fun entry entry' =>
        ∀ tokens, entry.expression.accepts tokens = entry'.expression.accepts tokens)
        (schema.find? label) (schema'.find? label) := by
  obtain ⟨schema, hcompile, hbefore⟩ := bind_eq_ok_iff.mp hbefore
  obtain ⟨schema', hcompile', hafter⟩ := bind_eq_ok_iff.mp hafter
  obtain ⟨entry, hentry, haccepts⟩ := Option.map_eq_some_iff.mp (Except.ok.inj hbefore)
  obtain ⟨entry', hentry', haccepts'⟩ := Option.map_eq_some_iff.mp (Except.ok.inj hafter)
  refine ⟨schema, schema', hcompile, hcompile', fun hrel => ?_⟩
  rw [hentry, hentry'] at hrel
  obtain ⟨hsame⟩ := hrel
  have hflip := haccepts.symm.trans ((hsame tokens).trans haccepts')
  cases outcome <;> simp at hflip

/-- **Elsewhere a group makes a difference**: among alternatives, among interleaved blocks, around a
text that is optional, and around nothing that is optional. -/
theorem rel_accepts_compileTree_not_of_tight :
    let reference (name : String) : Tree := ⟨"ref", .ofList [("name", name)], []⟩
    let define (name : String) (children : List Tree) : Tree :=
      ⟨"define", .ofList [("name", name)], children⟩
    let element (name : String) (children : List Tree) : Tree :=
      define name [⟨"element", .ofList [("name", name)], children⟩]
    let grammar (content body : List Tree) : Tree :=
      .plain "grammar" [.plain "start" [reference "p"],
      element "p" content, define "d" body, element "a" [], element "b" [], element "x" []]
    let Keeps (content body : List Tree) : Prop := ∀ schema schema',
      compileTree {} (grammar content body) = .ok schema →
        compileTree {} (grammar content [.plain "group" body]) = .ok schema' → ∀ label,
          Option.Rel (fun entry entry' =>
            ∀ tokens, entry.expression.accepts tokens = entry'.expression.accepts tokens)
            (schema.find? label) (schema'.find? label)
    ¬ Keeps [.plain "choice" [reference "d", reference "x"]] [reference "a", reference "b"] ∧
      ¬ Keeps [.plain "interleave" [reference "d", reference "x"]] [reference "a", reference "b"] ∧
      ¬ Keeps [.plain "optional" [reference "d"], reference "a"]
        [.plain "text" [], .plain "empty" []] ∧
      ¬ Keeps [.plain "choice" [reference "a", .plain "optional" [reference "d"]]]
        [.plain "empty" [], .plain "empty" []] := by
  intro reference define element grammar Keeps
  have hrefute : ∀ (content body : List Tree) (tokens : List String) (outcome : Bool),
      (compileTree {} (grammar content body) >>= fun schema =>
        .ok ((schema.find? "p").map fun entry => entry.expression.accepts tokens)) =
          .ok (some outcome) →
      (compileTree {} (grammar content [.plain "group" body]) >>= fun schema =>
        .ok ((schema.find? "p").map fun entry => entry.expression.accepts tokens)) =
          .ok (some !outcome) → ¬ Keeps content body := by
    intro content body tokens outcome hbefore hafter hkeeps
    obtain ⟨schema, schema', hcompile, hcompile', hdiffer⟩ := exists_not_rel_accepts hbefore hafter
    exact hdiffer (hkeeps schema schema' hcompile hcompile' "p")
  refine ⟨hrefute _ _ ["a"] true ?_ ?_, hrefute _ _ ["b", "a", "x"] true ?_ ?_,
    hrefute _ _ ["a"] false ?_ ?_, hrefute _ _ [] false ?_ ?_⟩ <;> cbv

end Schema

end RelaxSchema
