import RelaxSchema.Proofs.Content.Compilation
import RelaxSchema.Proofs.Content.Equivalence
import RelaxSchema.Proofs.Grammar.Respelling
import RelaxSchema.Proofs.Schema.FlatForm
import RelaxSchema.Proofs.Schema.Grouping

/-!
# Schemas of grammars with empty alternatives in the place of what is optional

* `Schema.narrows_compileTree`: if optional patterns are spelled as a choice of the pattern and of
  nothing, no element accepts more than before, and an element accepts the same where nothing may
  stand in the place of each choice anyway; the grammar still compiles, unless an automaton becomes
  too large.

The alternative of nothing is no block, so what is left of the choice is the pattern. The grammar is
followed through the compilation: registration and expansion
(`Definitions.exists_flatten_respelled`), then the content model of one element
(`NormalForm.Narrowed.exists_contentModel`), then its automata
(`FlatElement.Narrows.compile_cases`), then all entries (`Schema.ofFlat_cases`).
-/

namespace RelaxSchema

open List RelaxSchema.Tree RelaxSchema.NormalForm

/-! ### Content models -/

/-- How the content model of the second spelling compares with that of the first one. -/
structure Model.Narrows (idle : Bool) (model model' : Model) : Prop where
  /-- There is no interleave in a block of the second one. -/
  interleaves_eq : ∀ part ∈ model'.parts, part.interleaves = []
  /-- If the first one is ordered, so is the second one, and it has no other words. -/
  ordered : (∀ blocks, model ≠ .interleave blocks) →
    (∀ blocks, model' ≠ .interleave blocks) ∧ model'.language ≤ model.language
  /-- The blocks have the same words if the choices are idle. -/
  map_language_eq : idle = true → model.parts.map Model.language = model'.parts.map Model.language

namespace Tree

/-- A block that is not blank has one model, which is an interleave if the block is one. -/
theorem exists_of_blockModel {tree : Tree} {models : List Model} (hname : tree.name ∉ blankNames)
    (h : blockModel tree = .ok models) :
    ∃ model, models = [model] ∧ ∀ blocks, model = .interleave blocks →
      tree.name = "interleave" ∧ blockModels tree.children = .ok blocks := by
  obtain ⟨name, attributes, children⟩ := tree
  unfold blockModel at h
  split at h
  · simp [blankNames] at hname
  · simp [blankNames] at hname
  · simp [blankNames] at hname
  · split at h
    · cases h
    · obtain rfl := Except.ok.inj h
      exact ⟨_, rfl, by simp⟩
  · obtain rfl := Except.ok.inj h
    exact ⟨_, rfl, by simp⟩
  all_goals first
    | obtain ⟨blocks, hblocks, rfl⟩ := map_eq_ok_iff.mp h
      exact ⟨_, rfl, by simp [hblocks]⟩
    | cases h

/-- Blocks of which the content model is unordered are one interleave. -/
theorem exists_of_contentModel_interleave {trees : List Tree} {blocks : List Model}
    (hnames : ∀ tree ∈ trees, tree.name ∉ blankNames)
    (h : contentModel trees = .ok (.interleave blocks)) :
    ∃ node, trees = [node] ∧ node.name = "interleave" ∧ blockModels node.children = .ok blocks := by
  obtain ⟨models, hmodels, hside⟩ := map_eq_ok_iff.mp h
  have hone : models = [.interleave blocks] := by
    unfold sideBySide at hside
    split at hside
    · rw [hside]
    · cases hside
  subst hone
  cases trees with
  | nil => cases hmodels
  | cons node rest =>
    obtain ⟨hnode, hrest⟩ := forall_mem_cons.mp hnames
    obtain ⟨first, hfirst, hmodels⟩ := bind_eq_ok_iff.mp hmodels
    obtain ⟨others, hothers, hmodels⟩ := bind_eq_ok_iff.mp hmodels
    obtain ⟨model, rfl, hinterleave⟩ := exists_of_blockModel hnode hfirst
    obtain ⟨rfl, rfl⟩ := cons.inj (Except.ok.inj hmodels)
    obtain ⟨hname, hblocks⟩ := hinterleave blocks rfl
    cases rest with
    | nil => exact ⟨node, rfl, hname, hblocks⟩
    | cons second rest =>
      -- A second block would have a model of its own.
      obtain ⟨first, hfirst, hothers⟩ := bind_eq_ok_iff.mp hothers
      obtain ⟨others, -, hothers⟩ := bind_eq_ok_iff.mp hothers
      obtain ⟨model, rfl, -⟩ := exists_of_blockModel (hrest second mem_cons_self) hfirst
      cases hothers

end Tree

theorem Model.ne_interleave {model : Model} (h : model.interleaves = []) (blocks : List Model) :
    model ≠ .interleave blocks := by
  rintro rfl
  cases h

theorem Model.interleavesAll_eq_nil_iff {models : List Model} :
    Model.interleavesAll models = [] ↔ ∀ model ∈ models, model.interleaves = [] := by
  induction models with
  | nil => simp [Model.interleavesAll]
  | cons model rest ih => rw [Model.interleavesAll, append_eq_nil_iff, ih, forall_mem_cons]

namespace NormalForm

variable {idle : Bool} {blocks blocks' : List Tree} {model : Model}

/-- Blocks with a content model without interleaves are content. -/
theorem forall_content_of_contentModel
    (hnames : ∀ node ∈ preorderAll (normalise blocks), node.name ∉ blankNames)
    (hmodel : contentModel (normalise blocks) = .ok model) (hnone : model.interleaves = []) :
    ∀ block ∈ blocks, IsContent block := by
  obtain ⟨models, hmodels, -⟩ := map_eq_ok_iff.mp hmodel
  rw [interleaves_of_contentModel hmodel] at hnone
  exact forall_content_normalise_iff.mp (isContent_of_blockModels _ hnames hmodels hnone)

/-- **Ordered content** has a content model in the second spelling. -/
theorem Narrowed.exists_ordered (h : Narrowed idle .exact blocks blocks')
    (hcontent : ∀ block ∈ blocks, IsContent block)
    (hmodel : contentModel (normalise blocks) = .ok model) :
    ∃ model', contentModel (normalise blocks') = .ok model' ∧ model.Narrows idle model' := by
  have hcontent' := h.forall_content hcontent
  obtain ⟨model', hmodel'⟩ :=
    IsContent.exists_contentModel (forall_content_normalise_iff.mpr hcontent')
  have hnone : model.interleaves = [] := by
    rw [interleaves_of_contentModel hmodel]
    exact interleavesAll_of_content (forall_content_normalise_iff.mpr hcontent)
  have hnone' : model'.interleaves = [] := by
    rw [interleaves_of_contentModel hmodel']
    exact interleavesAll_of_content (forall_content_normalise_iff.mpr hcontent')
  have hlanguage : NormalForm.Narrows idle .exact model.language model'.language := by
    rw [language_of_contentModel hmodel, language_of_contentModel hmodel']
    exact h.normalLanguage_narrows hcontent
  have hparts := Model.parts_eq_singleton (Model.ne_interleave hnone)
  have hparts' := Model.parts_eq_singleton (Model.ne_interleave hnone')
  refine ⟨model', hmodel', ?_, fun _ => ⟨Model.ne_interleave hnone', hlanguage.le⟩, ?_⟩
  · rw [hparts']
    exact forall_mem_singleton.mpr hnone'
  · rintro rfl
    rw [hparts, hparts', map_singleton, map_singleton, hlanguage.eq]

/-- **Unordered content** has a content model in the second spelling. -/
theorem Narrowed.exists_unordered (h : Narrowed idle .exact blocks blocks')
    (hnames : ∀ node ∈ preorderAll (normalise blocks), node.name ∉ blankNames) {models : List Model}
    (hmodel : contentModel (normalise blocks) = .ok (.interleave models))
    (hnone : ∀ part ∈ models, part.interleaves = []) :
    ∃ model', contentModel (normalise blocks') = .ok model' ∧
      Model.Narrows idle (.interleave models) model' := by
  obtain ⟨node, hnode, hname, hmodels⟩ := exists_of_contentModel_interleave
    (fun tree htree => hnames tree (mem_preorderAll.mpr ⟨tree, htree, self_mem_preorder tree⟩))
    hmodel
  obtain ⟨children, children', hchildren, hnode', hnarrowed⟩ := h.exists_interleave hnode hname
  have hcontent : ∀ child ∈ children, IsContent child := by
    refine forall_content_normalise_iff.mp ?_
    rw [← hchildren]
    refine isContent_of_blockModels _ (fun inner hinner => hnames inner ?_) hmodels ?_
    · rw [hnode, mem_preorderAll_singleton]
      exact mem_preorder_of_below hinner
    · rw [← interleaves_blockModels _ hmodels]
      exact Model.interleavesAll_eq_nil_iff.mpr hnone
  have hcontent' := forall_content_normalise_iff.mpr (hnarrowed.forall_content hcontent)
  obtain ⟨models', hmodels'⟩ := exists_blockModels fun tree htree =>
    (hcontent' tree htree).exists_blockModel
  refine ⟨.interleave models', ?_, ?_, fun hordered => absurd rfl (hordered models), ?_⟩
  · rw [hnode', contentModel, blockModels, blockModel, hmodels']
    rfl
  · have hnone' : Model.interleavesAll models' = [] := by
      rw [interleaves_blockModels _ hmodels']
      exact interleavesAll_of_content hcontent'
    exact Model.interleavesAll_eq_nil_iff.mp hnone'
  · rintro rfl
    show models.map Model.language = models'.map Model.language
    rw [map_language_blockModels _ hmodels, map_language_blockModels _ hmodels', hchildren,
      hnarrowed.languages_eq hcontent]

/-- **Content has a content model in the second spelling**, and that is no wider. -/
theorem Narrowed.exists_contentModel (h : Narrowed idle .exact blocks blocks')
    (hnames : ∀ node ∈ preorderAll (normalise blocks), node.name ∉ blankNames)
    (hmodel : contentModel (normalise blocks) = .ok model)
    (hnone : ∀ part ∈ model.parts, part.interleaves = []) :
    ∃ model', contentModel (normalise blocks') = .ok model' ∧ model.Narrows idle model' := by
  by_cases hunordered : ∃ models, model = .interleave models
  · obtain ⟨models, rfl⟩ := hunordered
    exact h.exists_unordered hnames hmodel hnone
  · rw [Model.parts_eq_singleton (not_exists.mp hunordered), forall_mem_singleton] at hnone
    exact h.exists_ordered (forall_content_of_contentModel hnames hmodel hnone) hmodel

end NormalForm

/-! ### Expressions and entries -/

/-- An entry that allows no more than another one, unless the content is unordered. -/
structure ElementSchema.Narrows (idle : Prop) (entry entry' : ElementSchema) : Prop where
  /-- What the second one accepts, the first one does. -/
  accepts_of : entry.expression.isInterleave = false →
    ∀ tokens, entry'.expression.accepts tokens = true → entry.expression.accepts tokens = true
  /-- Both accept the same if the choices are idle. -/
  accepts_eq : idle → ∀ tokens, entry.expression.accepts tokens = entry'.expression.accepts tokens

/-- The error that an automaton has too many states. -/
def Limits.tooManyStates (limits : Limits) : Error :=
  .limitExceeded .dfaStates (max 1 limits.maxDfaStates + 1) limits.maxDfaStates

namespace Expression

variable {name : String} {model : Model} {limits : Limits} {expression : Expression}

theorem ne_interleave_of_isInterleave (h : compile name model limits = .ok expression)
    (hordered : expression.isInterleave = false) (blocks : List Model) :
    model ≠ .interleave blocks := by
  rintro rfl
  obtain ⟨engine, hengine, h⟩ := bind_eq_ok_iff.mp h
  obtain rfl := Except.ok.inj h
  obtain ⟨interleave, -, rfl⟩ := map_eq_ok_iff.mp hengine
  cases hordered

/-- Content without an interleave in a block has an expression, unless an automaton is too large. -/
theorem compile_cases (name : String) (limits : Limits)
    (hnone : ∀ part ∈ model.parts, part.interleaves = []) :
    (∃ expression, compile name model limits = .ok expression) ∨
      compile name model limits = .error limits.tooManyStates := by
  cases hcompile : compile name model limits with
  | ok expression => exact .inl ⟨expression, rfl⟩
  | error error =>
    obtain ⟨before, block, after, hparts, -, hexceeds⟩ :=
      ((compile_eq_iff name model limits).2.1 error).mp hcompile
    have hblock : block ∈ model.parts := hparts ▸ mem_append_right _ mem_cons_self
    cases hexceeds with
    | nested hsome => exact absurd (hnone block hblock) hsome
    | large _ _ => exact .inr rfl

theorem interleaves_eq_nil_of_mem_parts (h : compile name model limits = .ok expression) :
    ∀ part ∈ model.parts, part.interleaves = [] :=
  fun part hpart => (((compile_eq_iff name model limits).1.mp ⟨expression, h⟩) part
    hpart).interleaves_eq

end Expression

/-- Bodies whose blocks without attributes compare. -/
structure FlatBody.Narrows (idle : Bool) (body body' : FlatBody) : Prop where
  /-- They are the normal forms of such blocks. -/
  exists_blocks : ∃ blocks blocks', body.children = normalise blocks ∧
    body'.children = normalise blocks' ∧ Narrowed idle .exact blocks blocks'
  /-- No block is blank. -/
  notMem_blankNames : ∀ node ∈ preorderAll body.children, node.name ∉ blankNames

/-- Flat elements whose bodies compare. -/
structure FlatElement.Narrows (idle : Bool) (flat flat' : FlatElement) : Prop where
  /-- The names are the same. -/
  name_eq : flat.name = flat'.name
  /-- The types are the same. -/
  type_eq : flat.type = flat'.type
  /-- Either has a body or neither has one. -/
  rel_body : Option.Rel (FlatBody.Narrows idle) flat.body flat'.body

namespace FlatElement

variable {idle : Bool} {flat flat' : FlatElement} {model : Model} {limits : Limits}
    {entry : ElementSchema}

theorem Narrows.exists_model (h : flat.Narrows idle flat') (hmodel : flat.model = .ok model)
    (hnone : ∀ part ∈ model.parts, part.interleaves = []) :
    ∃ model', flat'.model = .ok model' ∧ model.Narrows idle model' := by
  have hbody := h.rel_body
  rw [FlatElement.model] at hmodel
  rw [FlatElement.model]
  generalize flat.body = body at hbody hmodel
  generalize flat'.body = body' at hbody
  cases hbody with
  | none =>
    obtain rfl := Except.ok.inj hmodel
    exact ⟨_, rfl, hnone, fun hordered => ⟨hordered, le_refl _⟩, fun _ => rfl⟩
  | some hnarrows =>
    obtain ⟨⟨blocks, blocks', hblocks, hblocks', hnarrowed⟩, hnames⟩ := hnarrows
    dsimp only at hmodel ⊢
    rw [hblocks] at hmodel hnames
    rw [hblocks']
    exact hnarrowed.exists_contentModel hnames hmodel hnone

theorem exists_elementType {expression : Expression} {type : ElementType}
    (h : flat.type = flat'.type) (htype : flat.elementType expression = .ok type)
    (expression' : Expression) : ∃ type', flat'.elementType expression' = .ok type' := by
  rw [elementType] at htype ⊢
  rw [← h]
  cases hname : flat.type with
  | none => exact ⟨_, rfl⟩
  | some name =>
    simp only [hname] at htype ⊢
    cases hfound : ElementType.ofName? name with
    | none => simp [hfound] at htype
    | some type' => exact ⟨type', rfl⟩

/-- **The element is compiled, or an automaton is too large.** -/
theorem Narrows.compile_cases (h : flat.Narrows idle flat')
    (hentry : flat.compile limits = .ok entry) :
    (∃ entry', flat'.compile limits = .ok entry') ∨
      flat'.compile limits = .error limits.tooManyStates := by
  obtain ⟨model, hmodel, hentry⟩ := bind_eq_ok_iff.mp hentry
  obtain ⟨expression, hexpression, hentry⟩ := bind_eq_ok_iff.mp hentry
  obtain ⟨type, htype, hcreate⟩ := bind_eq_ok_iff.mp hentry
  obtain ⟨hname, -, -⟩ := ElementSchema.create_eq_ok_iff.mp hcreate
  obtain ⟨model', hmodel', hnarrows⟩ :=
    h.exists_model hmodel (Expression.interleaves_eq_nil_of_mem_parts hexpression)
  rcases Expression.compile_cases flat'.name limits hnarrows.interleaves_eq with
    ⟨expression', hexpression'⟩ | herror
  · obtain ⟨type', htype'⟩ := exists_elementType h.type_eq htype expression'
    have hcreate' : ElementSchema.create flat'.name type' flat'.attributeNames expression' =
        .ok ⟨type', distinct flat'.attributeNames, expression'⟩ :=
      ElementSchema.create_eq_ok_iff.mpr ⟨h.name_eq ▸ hname,
        (Expression.compile_eq_ok hexpression').1, rfl⟩
    exact .inl
      ⟨_, bind_eq_ok_iff.mpr ⟨model', hmodel', bind_eq_ok_iff.mpr ⟨expression', hexpression',
      bind_eq_ok_iff.mpr ⟨type', htype', hcreate'⟩⟩⟩⟩
  · refine .inr ?_
    rw [FlatElement.compile, hmodel']
    show (Expression.compile flat'.name model' limits >>= _) = _
    rw [herror]
    rfl

/-- **The entries compare.** -/
theorem Narrows.narrows_compile (h : flat.Narrows idle flat')
    (hentry : flat.compile limits = .ok entry) {entry' : ElementSchema}
    (hentry' : flat'.compile limits = .ok entry') :
    entry.Narrows (idle = true) entry' := by
  obtain ⟨model, hmodel, hentry⟩ := bind_eq_ok_iff.mp hentry
  obtain ⟨expression, hexpression, hentry⟩ := bind_eq_ok_iff.mp hentry
  obtain ⟨type, -, hcreate⟩ := bind_eq_ok_iff.mp hentry
  obtain ⟨-, -, rfl⟩ := ElementSchema.create_eq_ok_iff.mp hcreate
  obtain ⟨model', hmodel', hnarrows⟩ :=
    h.exists_model hmodel (Expression.interleaves_eq_nil_of_mem_parts hexpression)
  obtain ⟨_, hsame, hentry'⟩ := bind_eq_ok_iff.mp hentry'
  obtain rfl := Except.ok.inj (hmodel'.symm.trans hsame)
  obtain ⟨expression', hexpression', hentry'⟩ := bind_eq_ok_iff.mp hentry'
  obtain ⟨type', -, hcreate'⟩ := bind_eq_ok_iff.mp hentry'
  obtain ⟨-, -, rfl⟩ := ElementSchema.create_eq_ok_iff.mp hcreate'
  refine ⟨fun hordered tokens haccepts => ?_, fun hidle tokens => ?_⟩
  · have hne := Expression.ne_interleave_of_isInterleave hexpression hordered
    obtain ⟨hne', hle⟩ := hnarrows.ordered hne
    rw [Expression.accepts_iff_mem_language hexpression' hne'] at haccepts
    exact (Expression.accepts_iff_mem_language hexpression hne tokens).mpr (hle haccepts)
  · rw [Bool.eq_iff_iff, Expression.accepts_iff_reads hexpression,
      Expression.accepts_iff_reads hexpression', hnarrows.map_language_eq hidle]

end FlatElement

/-! ### Flat forms -/

namespace Definitions

/-- A pattern is left after names are removed, and becomes one block, of which something is left. -/
def IsSingle (definitions : Definitions) (pattern : Tree) : Prop :=
  ∃ left, strip (definitions.toTree.markedNames "removed") [pattern] = [left] ∧
    Expansion.IsSingle definitions.stripRemoved.bodies left

/-- In the content of an element, nothing may stand in the place of each choice of the second
spelling anyway. -/
def IsIdle (definitions definitions' : Definitions) (label : String) : Prop :=
  ∀ element element' blocks blocks', definitions.elementOf? label = some element →
    definitions'.elementOf? label = some element' →
      expandContent definitions.bodies element.children = .ok blocks →
        expandContent definitions'.bodies element'.children = .ok blocks' →
          Narrowed true .exact (blocks.filter fun block => !block.mentions "attribute")
            (blocks'.filter fun block => !block.mentions "attribute")

/-- No block is blank in the normal form of expanded content. -/
theorem notMem_blankNames_divide {bodies : Catalogue (List Tree)} {content blocks : List Tree}
    (h : expandContent bodies content = .ok blocks) :
    ∀ node ∈ preorderAll (divide blocks).children, node.name ∉ blankNames := by
  intro node hnode
  have hexpanded : AreExpanded (divide blocks).children :=
    ((areExpanded_expandContent h).of_subset (filter_subset_self _)).of_isMadeOf
      (isMadeOf_normalise _)
  obtain ⟨hname, -⟩ := hexpanded node hnode
  have hattribute := name_ne_attribute_of_mem_divide node hnode
  simp only [expandedNames, blankNames, mem_cons, not_mem_nil, or_false, not_or] at hname ⊢
  exact ⟨hattribute, hname.2⟩

/-- Divided blocks compare. -/
theorem narrows_divide {idle : Bool} {bodies : Catalogue (List Tree)}
    {content blocks blocks' : List Tree} (hblocks : expandContent bodies content = .ok blocks)
    (h : Narrowed idle .exact (blocks.filter fun block => !block.mentions "attribute")
      (blocks'.filter fun block => !block.mentions "attribute")) :
    (divide blocks).Narrows idle (divide blocks') :=
  ⟨⟨_, _, rfl, rfl, h⟩, notMem_blankNames_divide hblocks⟩

/-- A body is made of expanded blocks. -/
theorem exists_divide_of_flattenElement {bodies : Catalogue (List Tree)} {names : List String}
    {element : Tree} {flat : FlatElement} (h : flattenElement bodies names element = .ok flat) :
    ∀ body, flat.body = some body → ∃ blocks, expandContent bodies element.children = .ok blocks ∧
      body = divide blocks := by
  intro body hbody
  have hname := attribute?_of_flattenElement h
  by_cases hmarked : flat.name ∈ names
  · simp only [flattenElement, hname, if_pos hmarked, Except.ok.injEq] at h
    rw [← h] at hbody
    cases hbody
  · obtain ⟨blocks, hblocks, hflat⟩ := (flattenElement_eq_ok_iff hname hmarked).mp h
    rw [hflat] at hbody
    exact ⟨blocks, hblocks, (Option.some.inj hbody).symm⟩

section Flat

variable {bodies bodies' : Catalogue (List Tree)} {names : List String}
    {definitions definitions' : Definitions}

/-- An element can be flattened in the second spelling. -/
theorem exists_flattenElement_respelled
    (hbodies : ∀ name, Option.Rel (Respelled (Expansion.IsSingle bodies)) (bodies.find? name)
      (bodies'.find? name))
    {element element' : Tree} (h : IsRespelling (Expansion.IsSingle bodies) element element')
    {flat : FlatElement} (hflat : flattenElement bodies names element = .ok flat) :
    ∃ flat', flattenElement bodies' names element' = .ok flat' ∧ flat.Narrows false flat' := by
  have hname := attribute?_of_flattenElement hflat
  have hname' := (h.attribute?_eq "name").symm.trans hname
  by_cases hmarked : flat.name ∈ names
  · simp only [flattenElement, hname, if_pos hmarked, Except.ok.injEq] at hflat
    refine ⟨flat, ?_, rfl, rfl, ?_⟩
    · simp only [flattenElement, hname', if_pos hmarked, hflat]
    · rw [← hflat]
      exact .none
  · obtain ⟨blocks, hblocks, hflat⟩ := (flattenElement_eq_ok_iff hname hmarked).mp hflat
    obtain ⟨blocks', hblocks', hnarrowed⟩ :=
      Expansion.exists_expandContent_respelled hbodies hblocks h.children
    refine ⟨_, (flattenElement_eq_ok_iff hname' hmarked).mpr ⟨blocks', hblocks', rfl⟩, rfl,
      by rw [hflat], ?_⟩
    rw [hflat]
    exact .some (narrows_divide hblocks hnarrowed.filter_attributes)

/-- **The second spelling has a flat form**, whose elements compare. -/
theorem exists_flatten_respelled (h : AreRespelled definitions.IsSingle definitions definitions')
    {flat : FlatGrammar} (hflat : definitions.flatten = .ok flat) :
    ∃ flat', definitions'.flatten = .ok flat' ∧ flat'.start = flat.start ∧ ∀ name,
      Option.Rel (FlatElement.Narrows false) (flat.elements.find? name)
        (flat'.elements.find? name) := by
  have hstripped : AreRespelled (Expansion.IsSingle definitions.stripRemoved.bodies)
    definitions.stripRemoved
      definitions'.stripRemoved := h.stripRemoved fun _ hpattern => hpattern
  have htree := hstripped.isRespelling_toTree
  obtain ⟨flats, hflats, hrest⟩ := bind_eq_ok_iff.mp hflat
  obtain ⟨entries, hentries, hrest⟩ := bind_eq_ok_iff.mp hrest
  obtain ⟨start, hstart, hrest⟩ := bind_eq_ok_iff.mp hrest
  obtain rfl := Except.ok.inj hrest
  rw [htree.markedNames_eq (by decide)] at hflats
  obtain ⟨flats', hflats', hall⟩ : ∃ flats', definitions'.stripRemoved.elements.mapM (flattenElement
      definitions'.stripRemoved.bodies
      (definitions'.stripRemoved.toTree.markedNames "not-implemented")) =
        .ok flats' ∧ Forall₂ (FlatElement.Narrows false) flats flats' := by
    refine exists_mapM_of_forall₂ (fun element element' made hrespelling hmade => ?_)
      hstripped.elements hflats
    exact exists_flattenElement_respelled hstripped.rel_bodies hrespelling hmade
  have hentered := rel_foldl_enter (fun _ _ hnarrows => hnarrows.name_eq) hall (.empty, [])
    (.empty, []) fun _ => .none
  obtain ⟨entries', hentries', hrel⟩ := exists_foldlM_of_forall₂
    (S := fun entries entries' => ∀ name,
      Option.Rel (FlatElement.Narrows false) (Catalogue.find? entries name)
        (Catalogue.find? entries' name))
    (fun _ _ _ _ _ hrel hrespelling hnext => exists_assignType_rel
      (fun _ _ _ hnarrows => ⟨hnarrows.name_eq, rfl, hnarrows.rel_body⟩)
      hrespelling.attributes_eq hrel hnext)
    (htree.findAll (by decide : "elementType" ∉ respelledNames)) hentered hentries
  refine ⟨⟨entries', (flats'.foldl enter (.empty, [])).2, start⟩, ?_, rfl, hrel⟩
  exact bind_eq_ok_iff.mpr ⟨flats', hflats', bind_eq_ok_iff.mpr ⟨entries', hentries',
    bind_eq_ok_iff.mpr ⟨start, hstripped.startName_eq.symm.trans hstart, rfl⟩⟩⟩

/-- Idle choices make no difference to a flat element. -/
theorem rel_of_isIdle {key : String} {flat flat' : FlatGrammar}
    (hflat : definitions.flatten = .ok flat) (hflat' : definitions'.flatten = .ok flat')
    (hrel : Option.Rel (FlatElement.Narrows false) (flat.elements.find? key)
      (flat'.elements.find? key)) :
    Option.Rel (fun made made' => made.Narrows false made' ∧
      (definitions.stripRemoved.IsIdle definitions'.stripRemoved key → made.Narrows true made'))
      (flat.elements.find? key) (flat'.elements.find? key) := by
  generalize hentry : flat.elements.find? key = found at hrel
  generalize hentry' : flat'.elements.find? key = found' at hrel
  cases hrel with
  | none => exact .none
  | some hnarrows =>
    refine .some ⟨hnarrows, fun h => ⟨hnarrows.name_eq, hnarrows.type_eq, ?_⟩⟩
    obtain ⟨element, made, type, helement, hmade, rfl⟩ := exists_of_find?_flatten hflat hentry
    obtain ⟨element', made', type', helement', hmade', rfl⟩ :=
      exists_of_find?_flatten hflat' hentry'
    have hbody := hnarrows.rel_body
    have hexists := exists_divide_of_flattenElement hmade
    have hexists' := exists_divide_of_flattenElement hmade'
    dsimp only at hbody ⊢
    generalize made.body = body at hbody hexists
    generalize made'.body = body' at hbody hexists'
    cases hbody with
    | none => exact .none
    | some _ =>
      obtain ⟨blocks, hblocks, rfl⟩ := hexists _ rfl
      obtain ⟨blocks', hblocks', rfl⟩ := hexists' _ rfl
      exact .some (narrows_divide hblocks (h _ _ _ _ helement helement' hblocks hblocks'))

end Flat

end Definitions

/-! ### Schemas -/

namespace Schema

variable {limits : Limits}

/-- Entries of which each is compiled or is refused for the same reason are all compiled, or one is
refused. -/
theorem foldlM_compileEntry_cases {entries : List (String × FlatElement)} {error : Error}
    (h : ∀ entry ∈ entries, (∃ element, entry.2.compile limits = .ok element) ∨
      entry.2.compile limits = .error error) (done : Catalogue ElementSchema) :
    (∃ all, entries.foldlM (compileEntry limits) done = .ok all) ∨
      entries.foldlM (compileEntry limits) done = .error error := by
  induction entries generalizing done with
  | nil => exact .inl ⟨done, rfl⟩
  | cons entry rest ih =>
    obtain ⟨hentry, hrest⟩ := forall_mem_cons.mp h
    rw [foldlM_cons, compileEntry]
    rcases hentry with ⟨element, helement⟩ | herror
    · rw [helement]
      exact ih hrest _
    · rw [herror]
      exact .inr rfl

/-- **The second spelling has a schema**, or an automaton is too large. -/
theorem ofFlat_cases {flat flat' : FlatGrammar} {schema : Schema}
    (hstart : flat'.start = flat.start)
    (hrel : ∀ name, Option.Rel (FlatElement.Narrows false) (flat.elements.find? name)
      (flat'.elements.find? name)) (h : ofFlat limits flat = .ok schema) :
    (∃ schema', ofFlat limits flat' = .ok schema') ∨
      ofFlat limits flat' = .error limits.tooManyStates := by
  have hcases : ∀ entry ∈ flat'.elements.entries,
    (∃ element, entry.2.compile limits = .ok element) ∨
      entry.2.compile limits = .error limits.tooManyStates := by
    rintro ⟨name, made'⟩ hentry
    have hnarrows := hrel name
    have hcompiled := rel_find?_ofFlat h name
    rw [Catalogue.find?_of_mem hentry] at hnarrows
    generalize flat.elements.find? name = made at hnarrows hcompiled
    generalize schema.find? name = entry at hcompiled
    cases hnarrows with
    | some hnarrows =>
      cases hcompiled with
      | some hcompile => exact hnarrows.compile_cases hcompile
  rcases foldlM_compileEntry_cases hcases .empty with ⟨elements', helements'⟩ | herror
  · have hdeclared : elements'.contains flat'.start = true := by
      have hstarted : (schema.find? flat.start).isSome = true :=
        start_ofFlat h ▸ schema.startDeclared
      have hbefore := rel_find?_ofFlat h flat.start
      have hnarrows := hrel flat.start
      have hafter := rel_find?_foldlM_compileEntry helements' flat.start
      rw [Catalogue.contains, hstart]
      generalize schema.find? flat.start = entry at hstarted hbefore
      generalize flat.elements.find? flat.start = made at hbefore hnarrows
      generalize flat'.elements.find? flat.start = made' at hnarrows hafter
      generalize elements'.find? flat.start = entry' at hafter
      cases hbefore with
      | none => cases hstarted
      | some _ =>
        cases hnarrows with
        | some _ =>
          cases hafter with
          | some _ => rfl
    exact .inl ⟨⟨elements', flat'.start, hdeclared⟩,
      bind_eq_ok_iff.mpr ⟨elements', helements', dif_pos hdeclared⟩⟩
  · refine .inr ?_
    rw [ofFlat, herror]
    rfl

/-- **An empty alternative is no alternative.** If optional patterns, each of which is expanded to
one block that is not empty, are spelled as a choice of the pattern and of nothing, the grammar is
still compiled, unless an automaton gets more states than the limits allow. Each element that is not
unordered accepts no list of tokens that it refused, and each element accepts exactly the same as
before if nothing may stand in the place of each such choice in its content anyway. -/
theorem narrows_compileTree {tree tree' grammar grammar' : Tree} {definitions : Definitions}
    {schema : Schema} (hgrammar : tree.grammar? = some grammar)
    (hgrammar' : tree'.grammar? = some grammar')
    (hcollect : Definitions.collect grammar = .ok definitions)
    (hrespelled : Respelled definitions.IsSingle grammar.children grammar'.children)
    (hcompile : compileTree limits tree = .ok schema) :
    ∃ definitions', Definitions.collect grammar' = .ok definitions' ∧
      (compileTree limits tree' = .error limits.tooManyStates ∨
        ∃ schema', compileTree limits tree' = .ok schema' ∧ schema'.start = schema.start ∧ ∀ key,
          Option.Rel
            (ElementSchema.Narrows (definitions.stripRemoved.IsIdle definitions'.stripRemoved key))
            (schema.find? key) (schema'.find? key)) := by
  obtain ⟨_, _, flat, hfound, hcollected, hflat, hschema⟩ := exists_ofFlat_of_compileTree hcompile
  obtain rfl := Option.some.inj (hgrammar.symm.trans hfound)
  obtain rfl := Except.ok.inj (hcollect.symm.trans hcollected)
  obtain ⟨definitions', hcollect', hdefinitions⟩ :=
    Definitions.exists_collect_respelled hrespelled hcollect
  obtain ⟨flat', hflat', hstart, hrel⟩ := Definitions.exists_flatten_respelled hdefinitions hflat
  have hcompile' : compileTree limits tree' = ofFlat limits flat' := by
    simp only [compileTree, hgrammar', hcollect', hflat', bind, Except.bind]
  refine ⟨definitions', hcollect', ?_⟩
  rw [hcompile']
  rcases ofFlat_cases hstart hrel hschema with ⟨schema', hschema'⟩ | herror
  · refine .inr ⟨schema', hschema', ?_, fun key => ?_⟩
    · rw [start_ofFlat hschema', hstart, start_ofFlat hschema]
    · refine rel_find?_of_ofFlat (fun made made' entry entry' hnarrows hentry hentry' => ?_) hschema
        hschema' (Definitions.rel_of_isIdle hflat hflat' (hrel key))
      obtain ⟨hmade, hidle⟩ := hnarrows
      exact ⟨(hmade.narrows_compile hentry hentry').accepts_of,
        fun h => ((hidle h).narrows_compile hentry hentry').accepts_eq rfl⟩
  · exact .inl herror

/-- A repetition of what is optional, which is defined in a group. -/
theorem narrows_compileTree_repeated :
    let reference (name : String) : Tree := ⟨"ref", .ofList [("name", name)], []⟩
    let define (name : String) (children : List Tree) : Tree :=
      ⟨"define", .ofList [("name", name)], children⟩
    let element (name : String) (children : List Tree) : Tree :=
      define name [⟨"element", .ofList [("name", name)], children⟩]
    let grammar (pattern : Tree) : Tree := .plain "grammar" [.plain "start" [reference "list"],
      element "list" [.plain "zeroOrMore" [pattern]],
      define "pair" [.plain "group" [reference "key", reference "value"]], element "key" [],
      element "value" []]
    ∃ schema schema', compileTree {} (grammar (.plain "optional" [reference "pair"])) = .ok schema ∧
      compileTree {} (grammar (.plain "choice" [reference "pair", .plain "empty" []])) =
        .ok schema' ∧ Option.Rel (fun entry entry' =>
        ∀ tokens, entry.expression.accepts tokens = entry'.expression.accepts tokens)
        (schema.find? "list") (schema'.find? "list") := by
  intro reference define element grammar
  let optional : Tree := .plain "optional" [reference "pair"]
  let choice : Tree := .plain "choice" [reference "pair", .plain "empty" []]
  let run : Tree := .plain "group" [Expansion.leaf "key", Expansion.leaf "value"]
  let positions : Catalogue Nat :=
    (((Catalogue.empty.insert "list" 0).insert "pair" 1).insert "key" 2).insert "value" 3
  have hschema : Schema.start <$> compileTree {} (grammar optional) = .ok "list" := by cbv
  have hschema' : Schema.start <$> compileTree {} (grammar choice) = .ok "list" := by cbv
  obtain ⟨schema, hcompile, -⟩ := map_eq_ok_iff.mp hschema
  obtain ⟨schema', hcompile', -⟩ := map_eq_ok_iff.mp hschema'
  let definitions (pattern : Tree) : Definitions := ⟨(grammar pattern).children, positions⟩
  have hcollect : Definitions.collect (grammar optional) = .ok (definitions optional) := rfl
  have hcollect' : Definitions.collect (grammar choice) = .ok (definitions choice) := rfl
  have hpair (bodies : Catalogue (List Tree))
    (hkey : bodies.find? "key" = some (element "key" []).children)
      (hvalue : bodies.find? "value" = some (element "value" []).children)
      (hpair : bodies.find? "pair" = some [.plain "group" [reference "key", reference "value"]]) :
      Expansion.Inlines bodies [reference "pair"] [run] := by
    have hrun : Expansion.Inlines bodies [reference "key", reference "value"]
        [Expansion.leaf "key", Expansion.leaf "value"] :=
      .ref ⟨rfl, rfl⟩ hkey (.element rfl rfl .nil)
        (.ref ⟨rfl, rfl⟩ hvalue (.element rfl rfl .nil) .nil)
    have hgroup : Expansion.Inlines bodies [.plain "group"
        [reference "key", reference "value"]] [run] :=
      .kept rfl hrun .nil
    exact .ref ⟨rfl, rfl⟩ hpair hgroup .nil
  have hblock : Expansion.Inlines (definitions optional).stripRemoved.bodies [reference
      "pair"] [run] :=
    hpair _ rfl rfl rfl
  have hblock' : Expansion.Inlines (definitions choice).stripRemoved.bodies [reference
      "pair"] [run] :=
    hpair _ rfl rfl rfl
  have hblocks : Expansion.Inlines (definitions optional).stripRemoved.bodies [.plain "zeroOrMore"
      [optional]] [.plain "zeroOrMore" [.plain "optional" [run]]] :=
    .kept rfl (.kept rfl hblock .nil) .nil
  have hblocks' : Expansion.Inlines (definitions choice).stripRemoved.bodies [.plain "zeroOrMore"
      [choice]] [.plain "zeroOrMore" [.plain "choice" [run]]] :=
    .kept rfl (.kept rfl (hblock'.append (.dropped (.inl rfl) .nil)) .nil) .nil
  have hleft : NormalForm.normalise (branches run) ≠ [] := by decide
  have hsingle : (definitions optional).IsSingle (reference "pair") :=
    ⟨reference "pair", rfl, run, hblock, hleft⟩
  have helement : (definitions optional).stripRemoved.elementOf? "list" =
      some ⟨"element", .ofList [("name", "list")], [.plain "zeroOrMore" [optional]]⟩ := by cbv
  have helement' : (definitions choice).stripRemoved.elementOf? "list" =
      some ⟨"element", .ofList [("name", "list")], [.plain "zeroOrMore" [choice]]⟩ := by cbv
  have hidle : (definitions optional).stripRemoved.IsIdle
      (definitions choice).stripRemoved "list" := by
    intro element element' blocks blocks' hfound hfound' hexpand hexpand'
    obtain rfl := Option.some.inj (hfound.symm.trans helement)
    obtain rfl := Option.some.inj (hfound'.symm.trans helement')
    obtain rfl := (Expansion.inlines_of_expandContent hexpand).unique hblocks
    obtain rfl := (Expansion.inlines_of_expandContent hexpand').unique hblocks'
    have hnarrowed : Narrowed true .exact [.plain "zeroOrMore" [.plain "optional" [run]]]
        [.plain "zeroOrMore" [.plain "choice" [run]]] := by
      have hrun : Narrowed true ((Place.exact).below "zeroOrMore" 1) [run] [run] :=
        .cons (by simp) (.cons (by simp) .nil (.cons (by simp) .nil .nil)) .nil
      exact .cons (by decide) (.choice hleft (fun _ => .inl (by decide)) hrun .nil) .nil
    exact hnarrowed
  have hreference (name : String) {rest rest' : List Tree}
      (hrest : Respelled (definitions optional).IsSingle rest rest') :
      Respelled (definitions optional).IsSingle (reference name :: rest)
        (reference name :: rest') :=
    .cons .nil hrest
  have hrespelled : Respelled (definitions optional).IsSingle (grammar optional).children
      (grammar choice).children := by
    have hlist : Respelled (definitions optional).IsSingle [.plain "zeroOrMore" [optional]]
        [.plain "zeroOrMore" [choice]] :=
      .cons (.choice hsingle (hreference "pair" .nil) .nil) .nil
    have hpair : Respelled (definitions optional).IsSingle
        [.plain "group" [reference "key", reference "value"]] [.plain "group"
          [reference "key", reference "value"]] :=
      .cons (hreference "key" (hreference "value" .nil)) .nil
    exact .cons (hreference "list" .nil)
      (.cons (.cons hlist .nil) (.cons hpair (.cons (.cons .nil .nil)
      (.cons (.cons .nil .nil) .nil))))
  obtain ⟨_, hcollected, htooManyStates | ⟨_, hcompiled, -, hrel⟩⟩ :=
    @narrows_compileTree {} (grammar optional) (grammar choice) (grammar optional) (grammar choice)
      _ schema rfl rfl hcollect hrespelled hcompile
  · cases hcompile'.symm.trans htooManyStates
  · obtain rfl := Except.ok.inj (hcollect'.symm.trans hcollected)
    obtain rfl := Except.ok.inj (hcompile'.symm.trans hcompiled)
    refine ⟨schema, schema', hcompile, hcompile', ?_⟩
    have hlist := hrel "list"
    generalize schema.find? "list" = entry at hlist
    generalize schema'.find? "list" = entry' at hlist
    cases hlist with
    | none => exact .none
    | some hnarrows => exact .some (hnarrows.accepts_eq hidle)

/-- **Elsewhere a choice of a pattern and of nothing is not optional**: the pattern becomes
mandatory, the automaton gets larger, the blocks of a pattern that becomes more than one are
alternatives, and a text loses the wrapper around the choice. -/
theorem narrows_compileTree_not_eq :
    let reference (name : String) : Tree := ⟨"ref", .ofList [("name", name)], []⟩
    let define (name : String) (children : List Tree) : Tree :=
      ⟨"define", .ofList [("name", name)], children⟩
    let element (name : String) (children : List Tree) : Tree :=
      define name [⟨"element", .ofList [("name", name)], children⟩]
    let grammar (content defines : List Tree) : Tree :=
      .plain "grammar" (.plain "start" [reference "p"] :: element "p" content ::
        element "a" [] :: defines)
    let Keeps (limits : Limits) (content : Tree → List Tree) (pattern : Tree)
        (defines : List Tree) : Prop :=
      ∀ schema, compileTree limits (grammar (content (.plain "optional" [pattern])) defines) =
        .ok schema → ∃ schema', compileTree limits
            (grammar (content (.plain "choice" [pattern, .plain "empty" []])) defines) =
              .ok schema' ∧
          ∀ label, Option.Rel (fun entry entry' =>
            ∀ tokens, entry.expression.accepts tokens = entry'.expression.accepts tokens)
            (schema.find? label) (schema'.find? label)
    let either : Tree := .plain "choice" [reference "a", reference "b"]
    ¬ Keeps {} (fun pattern => [pattern]) (reference "a") [] ∧
      ¬ Keeps { maxDfaStates := 3 } (fun pattern => [.plain "zeroOrMore" [either], pattern, either])
        (reference "a") [element "b" []] ∧
      ¬ Keeps {} (fun pattern => [pattern]) (reference "d")
        [define "d" [reference "e"], define "e" [reference "a", reference "b"], element "b" []] ∧
      ¬ Keeps {} (fun pattern => [.plain "optional" [pattern], reference "a"]) (reference "t")
        [define "t" [.plain "text" []]] := by
  intro reference define element grammar Keeps either
  have hrefute : ∀ (content : Tree → List Tree) (pattern : Tree) (defines : List Tree)
    (tokens : List String) (outcome : Bool),
      (compileTree {} (grammar (content (.plain "optional" [pattern])) defines) >>= fun schema =>
        .ok ((schema.find? "p").map fun entry => entry.expression.accepts tokens)) =
          .ok (some outcome) →
      (compileTree {} (grammar (content (.plain "choice" [pattern, .plain "empty" []])) defines) >>=
        fun schema => .ok ((schema.find? "p").map fun entry => entry.expression.accepts tokens)) =
          .ok (some !outcome) → ¬ Keeps {} content pattern defines := by
    intro content pattern defines tokens outcome hbefore hafter hkeeps
    obtain ⟨schema, schema', hcompile, hcompile', hdiffer⟩ := exists_not_rel_accepts hbefore hafter
    obtain ⟨_, hcompiled, hall⟩ := hkeeps schema hcompile
    obtain rfl := Except.ok.inj (hcompile'.symm.trans hcompiled)
    exact hdiffer (hall "p")
  refine ⟨?_, fun hkeeps => ?_, ?_, ?_⟩
  · exact hrefute (fun pattern => [pattern]) (reference "a") [] [] true (by cbv) (by cbv)
  · have hsmall : Schema.start <$> compileTree { maxDfaStates := 3 }
        (grammar [.plain "zeroOrMore" [either], .plain "optional" [reference "a"], either]
          [element "b" []]) = .ok "p" := by cbv
    have hlarge : Schema.start <$> compileTree { maxDfaStates := 3 } (grammar
        [.plain "zeroOrMore" [either], .plain "choice" [reference "a", .plain "empty" []],
          either] [element "b" []]) = .error (Limits.tooManyStates { maxDfaStates := 3 }) := by cbv
    obtain ⟨schema, hcompile, -⟩ := map_eq_ok_iff.mp hsmall
    obtain ⟨schema', hcompile', -⟩ := hkeeps schema hcompile
    have hnone : Schema.start <$> Except.ok schema' =
        Except.error (Limits.tooManyStates { maxDfaStates := 3 }) :=
      (congrArg _ hcompile').symm.trans hlarge
    cases hnone
  · exact hrefute (fun pattern => [pattern]) (reference "d")
      [define "d" [reference "e"], define "e" [reference "a", reference "b"],
        element "b" []] ["a"] false (by cbv) (by cbv)
  · exact hrefute (fun pattern => [.plain "optional" [pattern], reference "a"]) (reference "t")
      [define "t" [.plain "text" []]] ["a"] true (by cbv) (by cbv)

end Schema

end RelaxSchema
