import RelaxSchema.Grammar.Flattening
import RelaxSchema.Proofs.Grammar.Definitions
import RelaxSchema.Proofs.Grammar.Expansion
import RelaxSchema.Proofs.Grammar.NormalForm

/-!
# Flat forms of core grammars

* `Definitions.flatten_core`: the flat form of a core grammar starts with the same name, and has an
  element of a name exactly if the name is defined as one.

The content of the element is then made of forms of the defined content (`IsFlat`), which stand for
the same tokens: the references are expanded first, nothing of it is an attribute, and the normal
form of patterns consists of their forms.
-/

namespace RelaxSchema.Definitions

open List RelaxSchema.Tree

variable {grammar : Tree} {start : String} {definitions : Definitions}

/-- A flat element whose content consists of forms of some patterns. -/
def IsFlat (grammar : Tree) (content : List Tree) (flat : FlatElement) : Prop :=
  flat.type = none ∧ ∃ forms, flat.body = some ⟨[], forms⟩ ∧
    Forall₂ (IsForm grammar true) content forms

/-! ### Content -/

/-- Each block of a content is expanded to one block. -/
theorem expandContent_forms {bodies : Catalogue (List Tree)}
    (hbodies : Expansion.AreDefinitions grammar bodies.entries) {content blocks : List Tree}
    (h : ∀ block ∈ content, Pattern "ref" true block)
    (hblocks : expandContent bodies content = .ok blocks) :
    Forall₂ (IsForm grammar true) content blocks := by
  obtain ⟨results, hresults, rfl⟩ := map_eq_ok_iff.mp hblocks
  have hresolve := Expansion.resolves_resolve bodies.names hbodies
  have hall := mapM_eq_ok_iff.mp hresults
  clear hblocks hresults
  induction hall with
  | nil => exact .nil
  | cons hfirst _ ih =>
    rw [forall_mem_cons] at h
    obtain ⟨expanded, rfl, hform⟩ := Expansion.expand_pattern hresolve h.1 hfirst
    exact .cons hform (ih h.2)

/-- No pattern is an attribute or holds one. -/
theorem mentions_attribute_eq_false {block : Tree} (h : Pattern "element" true block) :
    block.mentions "attribute" = false := by
  rw [mentions, any_eq_false]
  intro node hnode hname
  have hnames := h.name_of_mem_preorder node hnode
  rw [isComposite_iff, of_decide_eq_true hname] at hnames
  simp at hnames

theorem divide_eq {blocks : List Tree} (h : ∀ block ∈ blocks, Pattern "element" true block) :
    divide blocks = ⟨[], NormalForm.normalise blocks⟩ := by
  have hnone := fun block hblock => mentions_attribute_eq_false (h block hblock)
  rw [divide, filter_eq_nil_iff.mpr fun block hblock => by simp [hnone block hblock],
    filter_eq_self.mpr fun block hblock => by simp [hnone block hblock]]

/-- **The flat form of an element** has forms of its content. -/
theorem isFlat_flattenElement {bodies : Catalogue (List Tree)}
    (hbodies : Expansion.AreDefinitions grammar bodies.entries) {element : Tree} {name : String}
    (hname : element.attribute? "name" = some name)
    (hcontent : ∀ child ∈ element.children, Pattern "ref" true child) {flat : FlatElement}
    (h : flattenElement bodies [] element = .ok flat) :
    flat.name = name ∧ IsFlat grammar element.children flat := by
  rw [flattenElement, hname] at h
  obtain ⟨blocks, hblocks, h⟩ := bind_eq_ok_iff.mp h
  obtain rfl := Except.ok.inj h
  have hforms := expandContent_forms hbodies hcontent hblocks
  have hpatterns := IsForm.forall_pattern hforms
  exact ⟨rfl, rfl, _, congrArg some (divide_eq hpatterns), NormalForm.normalise_forms hforms⟩

/-! ### Elements -/

theorem areDefinitions_bodies (h : IsCore grammar start)
    (hregistry : IsRegistryOf grammar definitions) :
    Expansion.AreDefinitions grammar definitions.bodies.entries := by
  intro name body hbody
  obtain ⟨definition, hmem, hname, hattribute, hsame⟩ :=
    exists_of_lookup_bodies hregistry.areRegistered hbody
  have hdefine : grammar.define? name = some definition :=
    (define?_eq_some_iff h.nodup).mpr ⟨hregistry.children_eq ▸ hmem, hname, hattribute⟩
  exact ⟨definition, hdefine, hsame, h.isDefinition_of_define? hdefine⟩

/-- The elements are what the definitions that are looked up hold. -/
theorem mem_elements_iff (h : IsCore grammar start) (hregistry : IsRegistryOf grammar definitions)
    {element : Tree} : element ∈ definitions.elements ↔ ∃ name definition,
      grammar.define? name = some definition ∧ definition.element? = some element := by
  have hcore : ∀ tree ∈ definitions.children,
      IsPlainBelow tree ∧ (isDefine tree = true → IsNamedDefinition tree) := by
    rw [hregistry.children_eq]
    exact fun tree htree => ⟨h.isPlainBelow tree htree, h.isNamedDefinition_of_mem tree htree⟩
  rw [elements_eq_filterMap hregistry.areRegistered hcore, mem_filterMap]
  constructor
  · rintro ⟨definition, hmem, helement⟩
    obtain ⟨hmem, hname⟩ := mem_filter.mp hmem
    obtain ⟨-, name, hattribute, -⟩ := (hcore definition hmem).2 hname
    have hdefine : grammar.define? name = some definition := (define?_eq_some_iff h.nodup).mpr
      ⟨hregistry.children_eq ▸ hmem, isDefine_iff.mp hname, hattribute⟩
    exact ⟨name, definition, hdefine, helement⟩
  · rintro ⟨name, definition, hdefine, helement⟩
    obtain ⟨hmem, hname, -⟩ := (define?_eq_some_iff h.nodup).mp hdefine
    exact ⟨definition, mem_filter.mpr ⟨hregistry.children_eq ▸ hmem, isDefine_iff.mpr hname⟩,
      helement⟩

theorem find?_foldl_enter (elements : List FlatElement) (name : String) :
    (elements.foldl enter (.empty, [])).1.find? name =
      elements.reverse.find? fun element => element.name = name := by
  induction elements using reverseRecOn with
  | nil => rfl
  | append_singleton elements element ih =>
    rw [foldl_append, foldl_cons, foldl_nil, enter, Catalogue.find?_insert, ih, reverse_append,
      reverse_singleton, singleton_append, find?_cons]
    by_cases hname : element.name = name
    · rw [if_pos hname.symm, decide_eq_true hname]
    · rw [if_neg (Ne.symm hname), decide_eq_false hname]

/-! ### Grammars -/

/-- The start is the only node of that name, and its reference the first node in it. -/
theorem startName_core (h : IsCore grammar start) (hregistry : IsRegistryOf grammar definitions) :
    startName definitions.toTree = .ok start := by
  obtain ⟨before, node, after, hsplit,
      ⟨hname, reference, hreference, href, htarget, -⟩, hdefines⟩ :=
    h.exists_start
  -- Whatever stands before the start is a definition, and no start is below one.
  have hbefore : (preorderAll before).find? (fun node => node.name = "start") = none := by
    rw [find?_eq_none]
    intro inner hinner hstart
    obtain ⟨tree, htree, hinner⟩ := mem_preorderAll.mp hinner
    have hdefine := hdefines tree (mem_append_left _ htree)
    rw [preorder_eq, mem_cons] at hinner
    rcases hinner with rfl | hinner
    · simp [hdefine.1] at hstart
    · exact hdefine.isPlainBelow.name_ne (by decide) inner hinner (of_decide_eq_true hstart)
  have hstart : definitions.toTree.find? "start" = some node := by
    rw [Tree.find?, descendants, toTree, plain, hregistry.children_eq, hsplit,
      preorderAll_append, find?_append, hbefore, Option.none_or, preorderAll, preorder_eq,
      cons_append, find?_cons, decide_eq_true hname]
  have hfirst : node.find? "ref" = some reference := by
    rw [Tree.find?, descendants, hreference, preorderAll, preorder_eq, cons_append, find?_cons,
      decide_eq_true href]
  rw [startName, hstart]
  simp only [hfirst, htarget]

/-- What the elements that are defined become, each under its name. -/
theorem rel_find?_flats (h : IsCore grammar start) (hregistry : IsRegistryOf grammar definitions)
    {flats : List FlatElement}
    (hflats : definitions.elements.mapM (flattenElement definitions.bodies []) = .ok flats)
    (name : String) : Option.Rel (IsFlat grammar) (grammar.content? name)
      (flats.reverse.find? fun flat => flat.name = name) := by
  have hall := mapM_eq_ok_iff.mp hflats
  have hflat : ∀ {name definition element flat}, grammar.define? name = some definition →
      definition.element? = some element → flattenElement definitions.bodies [] element = .ok flat →
        flat.name = name ∧ IsFlat grammar element.children flat := by
    intro name definition element flat hdefine helement hflatten
    obtain ⟨hname, hcontent⟩ := (h.isDefinition_of_define? hdefine).of_element? helement
    exact isFlat_flattenElement (areDefinitions_bodies h hregistry) hname hcontent hflatten
  cases hfind : flats.reverse.find? fun flat => flat.name = name with
  | none =>
    -- An element that is defined would have been entered.
    have hnone : grammar.content? name = none := by
      rw [Option.eq_none_iff_forall_ne_some]
      intro content hcontent
      obtain ⟨definition, element, hdefine, helement, -⟩ := content?_eq_some_iff.mp hcontent
      have hmem := (mem_elements_iff h hregistry).mpr ⟨name, definition, hdefine, helement⟩
      obtain ⟨flat, hflats, hflatten⟩ := exists_right_of_forall₂ hall hmem
      have := find?_eq_none.mp hfind flat (mem_reverse.mpr hflats)
      simp [(hflat hdefine helement hflatten).1] at this
    rw [hnone]
    exact .none
  | some flat =>
    obtain ⟨element, hmem, hflatten⟩ :=
      exists_right_of_forall₂ hall.flip (mem_reverse.mp (mem_of_find?_eq_some hfind))
    obtain ⟨other, definition, hdefine, helement⟩ :=
      (mem_elements_iff h hregistry).mp hmem
    obtain ⟨hname, hcontent⟩ := hflat hdefine helement hflatten
    have hother : flat.name = name := of_decide_eq_true (find?_some hfind :)
    obtain rfl := hother.symm.trans hname
    rw [content?_eq_some_iff.mpr ⟨definition, element, hdefine, helement, rfl⟩]
    exact .some hcontent

/-- **The flat form of a core grammar** has the elements that are defined, with forms of their
content. -/
theorem flatten_core (h : IsCore grammar start) (hcollect : collect grammar = .ok definitions)
    {flat : FlatGrammar} (hflat : definitions.flatten = .ok flat) : flat.start = start ∧
      ∀ name, Option.Rel (IsFlat grammar) (grammar.content? name) (flat.elements.find? name) := by
  have hnames : ∀ tree ∈ grammar.children, isDefine tree = true →
      ∃ name, tree.attribute? "name" = some name := fun tree htree hdefine =>
    (h.isNamedDefinition_of_mem tree htree hdefine).2.imp fun _ => And.left
  obtain ⟨all, hall, hregistry⟩ := exists_collect hnames h.nodup
  obtain rfl : all = definitions := Except.ok.inj (hall.symm.trans hcollect)
  have hnone : ∀ marker ∉ coreNames, all.toTree.findAll marker = [] := by
    intro marker hmarker
    rw [← h.findAll_eq_nil hmarker, findAll, findAll, descendants, descendants,
      ← hregistry.children_eq]
    rfl
  rw [flatten, stripRemoved_eq_self (hnone "removed" (by decide))] at hflat
  obtain ⟨flats, hflats, hflat⟩ := bind_eq_ok_iff.mp hflat
  obtain ⟨entries, hentries, hflat⟩ := bind_eq_ok_iff.mp hflat
  obtain ⟨name, hstart, hflat⟩ := bind_eq_ok_iff.mp hflat
  obtain rfl := Except.ok.inj hflat
  rw [startName_core h hregistry] at hstart
  rw [hnone "elementType" (by decide)] at hentries
  rw [markedNames, hnone "not-implemented" (by decide)] at hflats
  obtain rfl := Except.ok.inj hstart
  obtain rfl := Except.ok.inj hentries
  refine ⟨rfl, fun name => ?_⟩
  rw [find?_foldl_enter]
  exact rel_find?_flats h hregistry hflats name

end RelaxSchema.Definitions
