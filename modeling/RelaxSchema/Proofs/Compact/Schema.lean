import RelaxSchema.Proofs.Compact.Content
import RelaxSchema.Proofs.Compact.Document
import RelaxSchema.Proofs.Schema.Built

/-!
# Schemas in the compact format

* `Schema.exists_toCompact`: every schema can be written;
* `Schema.ofText_toText`: a schema is read back from its text, each entry and the order of the
  entries included.

An entry is read back on its own (`ElementSchema.resolve_toCompact`): its names through the table,
its content model by `Model.decode_encode`, and its automata because a content model has only one
expression, under whichever limits it compiles.
-/

namespace RelaxSchema

open List

/-! ### Writing -/

/-- An entry can be written if the table holds the names that it uses. -/
theorem ElementSchema.exists_toCompact {table : List String} {element : ElementSchema}
    (h : ∀ name ∈ element.literals, name ∈ table) :
    ∃ compact, element.toCompact table = .ok compact := by
  obtain ⟨ranks, hranks⟩ := exists_mapM fun name (hname : name ∈ element.attributes) =>
    exists_rankOf (h name (mem_append_left _ (mem_cons_of_mem _ hname)))
  obtain ⟨rank, hrank⟩ := exists_rankOf (h element.name (mem_append_left _ mem_cons_self))
  obtain ⟨content, hcontent⟩ := Model.exists_encode element.expression.model fun name hname =>
    h name (mem_append_right _ hname)
  exact ⟨_, bind_eq_ok_iff.mpr ⟨ranks, hranks, bind_eq_ok_iff.mpr ⟨rank, hrank,
    bind_eq_ok_iff.mpr ⟨content, hcontent, rfl⟩⟩⟩⟩

/-- **Every schema can be written.** -/
theorem Schema.exists_toCompact (schema : Schema) :
    ∃ document, schema.toCompact = .ok document := by
  obtain ⟨elements, helements⟩ :=
    exists_mapM fun element (helement : element ∈ schema.elements.values) =>
    ElementSchema.exists_toCompact fun _ hname => mem_literalTable helement hname
  obtain ⟨start, hstart⟩ := exists_rankOf schema.start_mem_literalTable
  exact ⟨_, bind_eq_ok_iff.mpr ⟨elements, helements, bind_eq_ok_iff.mpr ⟨start, hstart, rfl⟩⟩⟩

/-! ### Ranks and nesting of what is written -/

mutual

theorem Model.isPlain_encode {table : List String} (htable : table.length ≤ wordEnd) :
    ∀ (model : Model) {value : Json}, model.encode table = .ok value → value.IsPlain
  | .token name, value, h => by
    obtain ⟨rank, hrank, rfl⟩ := map_eq_ok_iff.mp h
    exact Nat.lt_of_lt_of_le (rank_lt_length hrank) htable
  | .sequence blocks, value, h | .choice blocks, value, h | .interleave blocks, value, h => by
    obtain ⟨items, hitems, hvalue⟩ := bind_eq_ok_iff.mp h
    obtain rfl := Except.ok.inj hvalue
    exact ⟨trivial, allPlain_encodeAll htable blocks hitems, trivial⟩
  | .optional block, value, h | .kleene block, value, h | .plus block, value, h => by
    obtain ⟨item, hitem, rfl⟩ := map_eq_ok_iff.mp h
    exact ⟨trivial, isPlain_encode htable block hitem, trivial⟩

theorem Model.allPlain_encodeAll {table : List String} (htable : table.length ≤ wordEnd) :
    ∀ (blocks : List Model) {items : List Json}, Model.encodeAll table blocks = .ok items →
      Json.AllPlain items
  | [], items, h => by
    obtain rfl := Except.ok.inj h
    trivial
  | block :: rest, items, h => by
    obtain ⟨item, hitem, h⟩ := bind_eq_ok_iff.mp h
    obtain ⟨others, hothers, h⟩ := bind_eq_ok_iff.mp h
    obtain rfl := Except.ok.inj h
    exact ⟨isPlain_encode htable block hitem, allPlain_encodeAll htable rest hothers⟩

end

theorem ElementSchema.isPlain_toCompact {table : List String} (htable : table.length ≤ wordEnd)
    {element : ElementSchema} {compact : CompactElement}
    (h : element.toCompact table = .ok compact) : compact.toJson.IsPlain := by
  obtain ⟨ranks, hranks, h⟩ := bind_eq_ok_iff.mp h
  obtain ⟨rank, hrank, h⟩ := bind_eq_ok_iff.mp h
  obtain ⟨content, hcontent, h⟩ := bind_eq_ok_iff.mp h
  obtain rfl := Except.ok.inj h
  refine ⟨Nat.lt_of_lt_of_le (rank_lt_length hrank) htable, trivial, Json.allPlain_iff.mpr ?_,
    Model.isPlain_encode htable _ hcontent, trivial⟩
  intro item hitem
  obtain ⟨attributeRank, hmem, rfl⟩ := mem_map.mp hitem
  obtain ⟨name, -, hname⟩ := exists_right_of_forall₂ (mapM_eq_ok_iff.mp hranks).flip hmem
  exact Nat.lt_of_lt_of_le (rank_lt_length hname) htable

/-- The ranks that are written are words if the table is no longer than words reach. -/
theorem Schema.isPlain_toCompact {schema : Schema} {document : CompactDocument}
    (h : schema.toCompact = .ok document) (htable : document.literals.length ≤ wordEnd) :
    document.schemaJson.IsPlain := by
  obtain ⟨elements, helements, h⟩ := bind_eq_ok_iff.mp h
  obtain ⟨start, hstart, h⟩ := bind_eq_ok_iff.mp h
  obtain rfl := Except.ok.inj h
  refine ⟨Nat.lt_of_lt_of_le (rank_lt_length hstart) htable, Json.allPlain_iff.mpr ?_, trivial⟩
  intro item hitem
  obtain ⟨compact, hmem, rfl⟩ := mem_map.mp hitem
  obtain ⟨element, -, helement⟩ := exists_right_of_forall₂ (mapM_eq_ok_iff.mp helements).flip hmem
  exact ElementSchema.isPlain_toCompact htable helement

/-! ### Reading -/

theorem mapM_literalAt {table names : List String} {ranks : List Nat}
    (h : names.mapM (rankOf table) = .ok ranks) : ranks.mapM (literalAt table) = .ok names :=
  mapM_eq_ok_iff.mpr ((mapM_eq_ok_iff.mp h).flip.imp fun _ _ hrank => literalAt_of_rankOf hrank)

/-- **An entry is read back.** -/
theorem ElementSchema.resolve_toCompact {table : List String} {limits limits' : Limits}
    {element : ElementSchema} (hbuilt : element.IsBuilt limits') {expression : Expression}
    (hcompile : Expression.compile element.name element.expression.model limits = .ok expression)
    {compact : CompactElement} (h : element.toCompact table = .ok compact) :
    compact.resolve limits table = .ok element := by
  obtain ⟨ranks, hranks, h⟩ := bind_eq_ok_iff.mp h
  obtain ⟨rank, hrank, h⟩ := bind_eq_ok_iff.mp h
  obtain ⟨content, hcontent, h⟩ := bind_eq_ok_iff.mp h
  obtain rfl := Except.ok.inj h
  obtain rfl := Expression.compile_unique hbuilt.compile_eq hcompile
  have hcreate : create element.name element.type element.attributes element.expression
      = .ok element := by
    refine create_eq_ok_iff.mpr ⟨hbuilt.name_ne, rfl, ?_⟩
    rw [distinct_eq_self hbuilt.nodup_attributes]
  refine bind_eq_ok_iff.mpr ⟨_, literalAt_of_rankOf hrank, ?_⟩
  refine bind_eq_ok_iff.mpr ⟨_, mapM_literalAt hranks, ?_⟩
  refine bind_eq_ok_iff.mpr ⟨_, Model.decode_encode _ hcontent, ?_⟩
  refine bind_eq_ok_iff.mpr ⟨_, hcompile, ?_⟩
  exact bind_eq_ok_iff.mpr ⟨_, ElementType.ofCode_code _, hcreate⟩

/-- Entries are entered in their order, behind those that are there. -/
theorem CompactDocument.foldlM_enter {limits : Limits} {table : List String}
    {pairs : List (String × ElementSchema)} {compacts : List CompactElement}
    (h : Forall₂ (fun pair compact =>
      pair.1 = pair.2.name ∧ compact.resolve limits table = .ok pair.2) pairs compacts)
    (done : Catalogue ElementSchema) (hnodup : ((done.entries ++ pairs).map Prod.fst).Nodup) :
    ∃ all, compacts.foldlM (enter limits table) done = .ok all ∧
      all.entries = done.entries ++ pairs := by
  induction h generalizing done with
  | nil => exact ⟨done, rfl, (append_nil _).symm⟩
  | @cons pair compact pairs compacts hpair _ ih =>
    obtain ⟨hname, hresolve⟩ := hpair
    have hnew : pair.2.name ∉ done.names := by
      rw [map_append, map_cons, hname] at hnodup
      exact fun hmem => disjoint_of_nodup_append hnodup hmem mem_cons_self
    have hentries :
        (done.insert pair.2.name pair.2).entries ++ pairs = done.entries ++ pair :: pairs := by
      rw [Catalogue.entries_insert hnew, append_assoc, ← hname, singleton_append]
    obtain ⟨all, hall, hsame⟩ := ih (done.insert pair.2.name pair.2) (by rwa [hentries])
    refine ⟨all, ?_, by rw [hsame, hentries]⟩
    rw [foldlM_cons]
    refine bind_eq_ok_iff.mpr ⟨done.insert pair.2.name pair.2, ?_, hall⟩
    exact bind_eq_ok_iff.mpr ⟨pair.2, hresolve, rfl⟩

/-- **A compact schema stands for the schema that it was written for.** -/
theorem Schema.toSchema_toCompact {limits : Limits} {schema : Schema} (hbuilt : schema.IsBuilt)
    (hcompiles : schema.CompilesUnder limits) {document : CompactDocument}
    (h : schema.toCompact = .ok document) : document.toSchema limits = .ok schema := by
  obtain ⟨compacts, hcompacts, h⟩ := bind_eq_ok_iff.mp h
  obtain ⟨start, hstart, h⟩ := bind_eq_ok_iff.mp h
  obtain rfl := Except.ok.inj h
  have hpairs : Forall₂ (fun pair compact => pair.1 = pair.2.name ∧
      CompactElement.resolve limits schema.literalTable compact = .ok pair.2)
      schema.elements.entries compacts := by
    have hmembers : Forall₂ (fun (pair : String × ElementSchema) compact =>
        pair ∈ schema.elements.entries ∧ pair.2.toCompact schema.literalTable = .ok compact)
        schema.elements.entries compacts :=
      (forall₂_and_left _ _).mpr ⟨fun _ hpair => hpair,
        forall₂_map_left_iff.mp (mapM_eq_ok_iff.mp hcompacts)⟩
    refine hmembers.imp fun pair compact hpair => ?_
    obtain ⟨hmem, hcompact⟩ := hpair
    obtain ⟨hname, limits', helement⟩ := hbuilt pair hmem
    obtain ⟨expression, hcompile⟩ := hcompiles pair.2 (mem_map.mpr ⟨pair, hmem, rfl⟩)
    exact ⟨hname, ElementSchema.resolve_toCompact helement hcompile hcompact⟩
  -- The entries come back in their order, so the catalogue is the same.
  obtain ⟨all, hall, hentries⟩ := CompactDocument.foldlM_enter hpairs .empty schema.elements.nodup
  obtain rfl : all = schema.elements := Catalogue.ext_entries hentries
  refine bind_eq_ok_iff.mpr ⟨schema.start, literalAt_of_rankOf hstart, ?_⟩
  exact bind_eq_ok_iff.mpr ⟨schema.elements, hall, schema.ofElements_elements⟩

/-- **The compact format round-trips.** Every schema can be written; if its contents compile under
the limits, it is read back from its text as it was, automata included, provided that the text is
nested no deeper than the reader of JSON goes and that its ranks are words of 64 bits. -/
theorem Schema.ofText_toText (limits : Limits) (schema : Schema) (hbuilt : schema.IsBuilt)
    (hcompiles : schema.CompilesUnder limits) :
    ∃ document, schema.toCompact = .ok document ∧ schema.toText = .ok document.text ∧
      (document.toJson.nesting ≤ Json.maxDepth → document.literals.length ≤ wordEnd →
        Schema.ofText limits document.text = .ok schema) := by
  obtain ⟨document, hdocument⟩ := schema.exists_toCompact
  refine ⟨document, hdocument, map_eq_ok_iff.mpr ⟨document, hdocument, rfl⟩,
    fun hnesting htable => ?_⟩
  have hread := document.ofText?_text (isPlain_toCompact hdocument htable) hnesting
  rw [Schema.ofText, hread]
  exact toSchema_toCompact hbuilt hcompiles hdocument

/-- An element with an attribute that may hold itself. -/
theorem Schema.ofText_toText_recursive : ∃ schema : Schema, ∃ document : CompactDocument,
    schema.toCompact = .ok document ∧
      document.literals = ["a", "id"] ∧ schema.toText = .ok document.text ∧
        Schema.ofText {} document.text = .ok schema := by
  have hround : (CompactDocument.toSchema {} ⟨["a", "id"], 0,
      [⟨0, "e", [1], .array [.string "?", .nat 0]⟩]⟩ >>= fun schema => schema.toCompact)
        = .ok ⟨["a", "id"], 0, [⟨0, "e", [1], .array [.string "?", .nat 0]⟩]⟩ := by
    cbv
  obtain ⟨schema, hschema, hcompact⟩ := bind_eq_ok_iff.mp hround
  have helements := isBuilt_toSchema hschema
  obtain ⟨document, hdocument, htext, hread⟩ := ofText_toText {} schema
    (isBuilt_of_elements helements) (compilesUnder_of_elements helements)
  obtain rfl := Except.ok.inj (hcompact.symm.trans hdocument)
  refine ⟨schema, _, hcompact, rfl, htext, hread (by decide) ?_⟩
  show 2 ≤ wordEnd
  decide

end RelaxSchema
