import RelaxSchema.Compact.Schema
import RelaxSchema.Schema.Compilation
import RelaxSchema.Proofs.Catalogue
import RelaxSchema.Proofs.Automaton.Limits

/-!
# How schemas are built

A schema comes from a grammar or from the compact format. Either way each entry is made by
`ElementSchema.create` for an expression that was compiled, and stored under its own name.

* `Schema.isBuilt_compileTree`, `Schema.isBuilt_toSchema`: both ways lead to such schemas.
-/

namespace RelaxSchema

theorem Expression.compile_eq_ok {name : String} {model : Model} {limits : Limits}
    {expression : Expression} (h : compile name model limits = .ok expression) :
    expression.name = name ∧ expression.model = model := by
  obtain ⟨engine, -, hexpression⟩ := bind_eq_ok_iff.mp h
  obtain rfl := Except.ok.inj hexpression
  exact ⟨rfl, rfl⟩

namespace ElementSchema

variable {name : String} {type : ElementType} {attributes : List String} {expression : Expression}
  {element : ElementSchema} {limits : Limits}

theorem create_eq_ok_iff : create name type attributes expression = .ok element ↔
    name ≠ "" ∧ expression.name = name ∧ element = ⟨type, distinct attributes, expression⟩ := by
  unfold create
  by_cases hempty : name.isEmpty = true
  · rw [if_pos hempty]
    simp [String.isEmpty_iff.mp hempty]
  · have hname : name ≠ "" := fun h => hempty (String.isEmpty_iff.mpr h)
    rw [if_neg hempty]
    by_cases hforeign : expression.name = name
    · rw [if_neg (not_not.mpr hforeign), Except.ok.injEq]
      exact ⟨fun h => ⟨hname, hforeign, h.symm⟩, fun h => h.2.2.symm⟩
    · rw [if_pos hforeign]
      simp [hforeign]

/-- The entry was made for an expression that was compiled under some limits. -/
def IsBuilt (limits : Limits) (element : ElementSchema) : Prop :=
  ∃ name model type attributes expression, Expression.compile name model limits = .ok expression ∧
    create name type attributes expression = .ok element

theorem IsBuilt.name_ne (h : element.IsBuilt limits) : element.name ≠ "" := by
  obtain ⟨_, _, _, _, _, -, hcreate⟩ := h
  obtain ⟨hname, rfl, rfl⟩ := create_eq_ok_iff.mp hcreate
  exact hname

theorem IsBuilt.nodup_attributes (h : element.IsBuilt limits) : element.attributes.Nodup := by
  obtain ⟨_, _, _, _, _, -, hcreate⟩ := h
  obtain ⟨-, rfl, rfl⟩ := create_eq_ok_iff.mp hcreate
  exact nodup_distinct _

theorem IsBuilt.compile_eq (h : element.IsBuilt limits) :
    Expression.compile element.name element.expression.model limits = .ok element.expression := by
  obtain ⟨_, _, _, _, _, hcompile, hcreate⟩ := h
  obtain ⟨-, rfl, rfl⟩ := create_eq_ok_iff.mp hcreate
  obtain ⟨-, rfl⟩ := Expression.compile_eq_ok hcompile
  exact hcompile

end ElementSchema

/-- Each entry is made under the limits and stored under its own name. -/
def Catalogue.IsBuilt (limits : Limits) (elements : Catalogue ElementSchema) : Prop :=
  ∀ entry ∈ elements.entries, entry.1 = entry.2.name ∧ entry.2.IsBuilt limits

theorem Catalogue.isBuilt_empty (limits : Limits) :
    (empty : Catalogue ElementSchema).IsBuilt limits := by
  intro entry hentry
  exact absurd hentry List.not_mem_nil

theorem Catalogue.IsBuilt.insert {limits : Limits} {elements : Catalogue ElementSchema}
    (h : elements.IsBuilt limits) {element : ElementSchema} (helement : element.IsBuilt limits)
    {name : String} (hname : name = element.name) :
    (elements.insert name element).IsBuilt limits := by
  intro entry hentry
  rcases mem_insert hentry with rfl | hold
  · exact ⟨hname, helement⟩
  · exact h entry hold

namespace Schema

variable {schema : Schema} {limits : Limits}

/-- Each entry is made from a compiled expression and stored under its own name. -/
def IsBuilt (schema : Schema) : Prop :=
  ∀ entry ∈ schema.elements.entries, entry.1 = entry.2.name ∧ ∃ limits, entry.2.IsBuilt limits

/-- The content of each element compiles under some limits. -/
def CompilesUnder (schema : Schema) (limits : Limits) : Prop :=
  ∀ element ∈ schema.elements.values, ∃ expression,
    Expression.compile element.name element.expression.model limits = .ok expression

theorem isBuilt_of_elements (h : schema.elements.IsBuilt limits) : schema.IsBuilt :=
  fun entry hentry => ⟨(h entry hentry).1, limits, (h entry hentry).2⟩

theorem compilesUnder_of_elements (h : schema.elements.IsBuilt limits) :
    schema.CompilesUnder limits := by
  intro element helement
  obtain ⟨entry, hentry, rfl⟩ := List.mem_map.mp helement
  exact ⟨entry.2.expression, (h entry hentry).2.compile_eq⟩

theorem ofElements_eq_ok {elements : Catalogue ElementSchema} {start : String}
    (h : ofElements elements start = .ok schema) :
    schema.elements = elements ∧ schema.start = start := by
  unfold ofElements at h
  split at h
  · obtain rfl := Except.ok.inj h
    exact ⟨rfl, rfl⟩
  · simp at h

theorem ofElements_elements (schema : Schema) :
    ofElements schema.elements schema.start = .ok schema := by
  unfold ofElements
  rw [dif_pos schema.startDeclared]

/-- **Reading the compact format** makes each entry anew. -/
theorem isBuilt_toSchema {document : CompactDocument} (h : document.toSchema limits = .ok schema) :
    schema.elements.IsBuilt limits := by
  obtain ⟨start, -, h⟩ := bind_eq_ok_iff.mp h
  obtain ⟨elements, helements, h⟩ := bind_eq_ok_iff.mp h
  obtain ⟨hsame, -⟩ := ofElements_eq_ok h
  rw [hsame]
  refine foldlM_induction (fun entries element _ next hentries hnext => ?_)
    (Catalogue.isBuilt_empty limits) helements
  obtain ⟨entry, hentry, hnext⟩ := bind_eq_ok_iff.mp hnext
  obtain rfl := Except.ok.inj hnext
  obtain ⟨name, -, hentry⟩ := bind_eq_ok_iff.mp hentry
  obtain ⟨attributes, -, hentry⟩ := bind_eq_ok_iff.mp hentry
  obtain ⟨model, -, hentry⟩ := bind_eq_ok_iff.mp hentry
  obtain ⟨expression, hexpression, hentry⟩ := bind_eq_ok_iff.mp hentry
  obtain ⟨type, -, hcreate⟩ := bind_eq_ok_iff.mp hentry
  exact hentries.insert ⟨name, model, type, attributes, expression, hexpression, hcreate⟩ rfl

end Schema

/-! ### Grammars -/

/-- Each element of a flat grammar is stored under its own name. -/
def FlatGrammar.IsNamed (elements : Catalogue FlatElement) : Prop :=
  ∀ entry ∈ elements.entries, entry.1 = entry.2.name

theorem FlatGrammar.IsNamed.insert {elements : Catalogue FlatElement} (h : IsNamed elements)
    {element : FlatElement} {name : String} (hname : name = element.name) :
    IsNamed (elements.insert name element) := by
  intro entry hentry
  rcases Catalogue.mem_insert hentry with rfl | hold
  · exact hname
  · exact h entry hold

/-- A declaration gives its type to an element that is there. -/
theorem Definitions.assignType_eq_ok_iff {entries next : Catalogue FlatElement}
    {declaration : Tree} : assignType entries declaration = .ok next ↔ ∃ name type element,
      declaration.attribute? "name" = some name ∧ declaration.attribute? "type" = some type ∧
        entries.find? name = some element ∧
        next = entries.insert name { element with type := some type } := by
  unfold assignType
  constructor
  · intro h
    split at h
    · rename_i name type hname htype
      split at h
      · rename_i element helement
        exact ⟨name, type, element, hname, htype, helement, (Except.ok.inj h).symm⟩
      · cases h
    · cases h
  · rintro ⟨name, type, element, hname, htype, helement, rfl⟩
    simp only [hname, htype, helement]

theorem Definitions.isNamed_flatten {definitions : Definitions} {flat : FlatGrammar}
    (h : definitions.flatten = .ok flat) : FlatGrammar.IsNamed flat.elements := by
  obtain ⟨elements, -, h⟩ := bind_eq_ok_iff.mp h
  obtain ⟨entries, hentries, h⟩ := bind_eq_ok_iff.mp h
  obtain ⟨start, -, h⟩ := bind_eq_ok_iff.mp h
  obtain rfl := Except.ok.inj h
  refine foldlM_induction (fun entries declaration _ next hnamed hnext => ?_) ?_ hentries
  · -- A declaration replaces an entry by one of the same name.
    obtain ⟨name, type, element, -, -, hfound, rfl⟩ := assignType_eq_ok_iff.mp hnext
    exact hnamed.insert (hnamed _ (Catalogue.mem_entries_of_find? hfound))
  · suffices hfold : ∀ (elements : List FlatElement)
      (entries : Catalogue FlatElement × List String),
        FlatGrammar.IsNamed entries.1 → FlatGrammar.IsNamed (elements.foldl enter entries).1 from
      hfold elements _ fun entry hentry => absurd hentry List.not_mem_nil
    intro elements
    induction elements with
    | nil => exact fun entries hnamed => hnamed
    | cons element rest ih => exact fun entries hnamed => ih _ (hnamed.insert rfl)

namespace Schema

variable {schema : Schema} {limits : Limits}

theorem isBuilt_ofFlat {flat : FlatGrammar} (hnamed : FlatGrammar.IsNamed flat.elements)
    (h : ofFlat limits flat = .ok schema) : schema.elements.IsBuilt limits := by
  obtain ⟨elements, helements, h⟩ := bind_eq_ok_iff.mp h
  obtain ⟨hsame, -⟩ := ofElements_eq_ok h
  rw [hsame]
  refine foldlM_induction (fun entries entry hentry next hentries hnext => ?_)
    (Catalogue.isBuilt_empty limits) helements
  obtain ⟨element, helement, hnext⟩ := bind_eq_ok_iff.mp hnext
  obtain rfl := Except.ok.inj hnext
  obtain ⟨model, -, helement⟩ := bind_eq_ok_iff.mp helement
  obtain ⟨expression, hexpression, helement⟩ := bind_eq_ok_iff.mp helement
  obtain ⟨type, -, hcreate⟩ := bind_eq_ok_iff.mp helement
  refine hentries.insert ⟨_, model, type, _, expression, hexpression, hcreate⟩ ?_
  obtain ⟨-, hname, rfl⟩ := ElementSchema.create_eq_ok_iff.mp hcreate
  rw [hnamed entry hentry, ← hname]
  rfl

/-- **Compilation of a grammar** makes each entry and stores it under its own name. -/
theorem isBuilt_compileTree {tree : Tree} (h : compileTree limits tree = .ok schema) :
    schema.elements.IsBuilt limits := by
  unfold compileTree at h
  split at h
  · simp at h
  · obtain ⟨definitions, -, h⟩ := bind_eq_ok_iff.mp h
    obtain ⟨flat, hflat, h⟩ := bind_eq_ok_iff.mp h
    exact isBuilt_ofFlat (Definitions.isNamed_flatten hflat) h

end Schema

end RelaxSchema
