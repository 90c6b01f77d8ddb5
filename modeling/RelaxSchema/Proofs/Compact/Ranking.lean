import RelaxSchema.Proofs.Compact.Schema

/-!
# The order of literal tables

* `pairwise_rankedLiterals`: in the table of some uses, names that are used more often come first,
  and names of the same number of uses stand in the order of their first use;
* `Schema.areRanks_toCompact`: the numbers in a schema that is written are the ranks of the names
  that it uses, one by one;
* `Schema.exists_toCompact_ranked`: so the table of a schema holds what is needed and nothing else,
  and shorter ranks are written more often.

Counting goes over the names of a schema and writing over its entries. The two meet in the list of
the ranks of the text: it is as long as that of the names, and a rank stands where its name stood.
-/

namespace RelaxSchema

open List

/-! ### Ranking -/

/-- The numbers of uses need not be carried along. -/
theorem rankedLiterals_eq_mergeSort (uses : List String) : rankedLiterals uses =
    (distinct uses).mergeSort fun name other => uses.count other ≤ uses.count name := by
  rw [rankedLiterals, map_mergeSort (s := fun name other => uses.count other ≤ uses.count name),
    map_map]
  · exact congrArg (mergeSort · _) (map_id _)
  · intro entry hentry other hother
    obtain ⟨name, -, rfl⟩ := mem_map.mp hentry
    obtain ⟨name', -, rfl⟩ := mem_map.mp hother
    rfl

theorem nodup_rankedLiterals (uses : List String) : (rankedLiterals uses).Nodup := by
  rw [rankedLiterals_eq_mergeSort, (mergeSort_perm _ _).nodup_iff]
  exact nodup_distinct uses

/-- **Names that are used more often come first**, and names of the same number of uses in the order
of their first use. -/
theorem pairwise_rankedLiterals (uses : List String) :
    (rankedLiterals uses).Pairwise fun name other =>
    uses.count other ≤ uses.count name ∧
      (uses.count other = uses.count name → uses.idxOf name < uses.idxOf other) := by
  have hnodup := nodup_rankedLiterals uses
  rw [rankedLiterals_eq_mergeSort] at hnodup ⊢
  have htrans : ∀ first second third : String,
    decide (uses.count second ≤ uses.count first) = true →
      decide (uses.count third ≤ uses.count second) = true →
        decide (uses.count third ≤ uses.count first) = true := by
    simp only [decide_eq_true_eq]
    omega
  have htotal : ∀ first second : String, (decide (uses.count second ≤ uses.count first) ||
      decide (uses.count first ≤ uses.count second)) = true := by
    simp only [Bool.or_eq_true, decide_eq_true_eq]
    omega
  have hsorted := pairwise_mergeSort htrans htotal (distinct uses)
  rw [pairwise_iff_forall_sublist] at hsorted ⊢
  intro name other hpair
  refine ⟨of_decide_eq_true (hsorted hpair), fun hsame => ?_⟩
  have hmem : ∀ entry ∈ [name, other], entry ∈ distinct uses := fun entry hentry =>
    mem_mergeSort.mp (hpair.subset hentry)
  have hne : name ≠ other := by
    have hdistinct := hpair.nodup hnodup
    rintro rfl
    exact (nodup_cons.mp hdistinct).1 mem_cons_self
  -- Sorting is stable, so the other way round they would still stand the other way round.
  have hstable : ¬ [other, name] <+ distinct uses := fun hswapped =>
    not_sublist_swap hnodup hpair
      (pair_sublist_mergeSort htrans htotal (decide_eq_true hsame.ge) hswapped)
  have hkept : [name, other] <+ distinct uses :=
    (sublist_or_sublist (hmem name (by simp)) (hmem other (by simp)) hne).resolve_right hstable
  exact pairwise_iff_forall_sublist.mp (pairwise_distinct uses) hkept

example : rankedLiterals ["b", "a", "c", "a", "c"] = ["a", "c", "b"] := by cbv

/-! ### The ranks that are written -/

namespace Json

mutual

/-- The natural numbers in a value, in the order of its text. -/
def naturals : Json → List Nat
  | number (.natural value) => [value]
  | array items => naturalsAll items
  | object members => naturalsOfMembers members
  | null | bool _ | number (.negative _) | number (.double _) | string _ => []

/-- The natural numbers in several values. -/
def naturalsAll : List Json → List Nat
  | [] => []
  | item :: rest => naturals item ++ naturalsAll rest

/-- The natural numbers in named values. -/
def naturalsOfMembers : List (String × Json) → List Nat
  | [] => []
  | (_, value) :: rest => naturals value ++ naturalsOfMembers rest

end

theorem naturalsAll_eq_flatMap (items : List Json) :
    naturalsAll items = items.flatMap naturals := by
  induction items with
  | nil => rfl
  | cons item rest ih => rw [naturalsAll, ih, flatMap_cons]

theorem naturalsAll_map_nat (values : List Nat) : naturalsAll (values.map nat) = values := by
  induction values with
  | nil => rfl
  | cons value rest ih =>
    rw [map_cons, naturalsAll, ih]
    rfl

end Json

/-- Numbers are the ranks of names, one by one. -/
def AreRanks (table names : List String) (ranks : List Nat) : Prop :=
  Forall₂ (fun name rank => rankOf table name = .ok rank) names ranks

section AreRanks

variable {table names others : List String} {ranks ranks' : List Nat}

theorem AreRanks.append (h : AreRanks table names ranks) (h' : AreRanks table others ranks') :
    AreRanks table (names ++ others) (ranks ++ ranks') :=
  rel_append h h'

/-- Ranks lead back to their names. -/
theorem AreRanks.map_getElem? (h : AreRanks table names ranks) :
    ranks.map (table[·]?) = names.map some := by
  induction h with
  | nil => rfl
  | cons hrank _ ih => rw [map_cons, map_cons, ih, getElem?_of_idxOf? (rankOf_eq_ok_iff.mp hrank)]

/-- **A rank occurs as often as its name**, if the table holds no name twice. -/
theorem AreRanks.count_eq (h : AreRanks table names ranks) (hnodup : table.Nodup) {name : String}
    {rank : Nat} (hname : table[rank]? = some name) : ranks.count rank = names.count name := by
  have hrank : rankOf table name = .ok rank :=
    rankOf_of_literalAt hnodup (literalAt_eq_ok_iff.mpr hname)
  induction h with
  | nil => rfl
  | @cons other rank' _ _ hother _ ih =>
    have hsame : rank' = rank ↔ other = name := by
      constructor
      · rintro rfl
        exact Option.some.inj ((getElem?_of_idxOf? (rankOf_eq_ok_iff.mp hother)).symm.trans hname)
      · rintro rfl
        exact Except.ok.inj (hother.symm.trans hrank)
    rw [count_cons, count_cons, ih]
    simp only [beq_iff_eq, hsame]

end AreRanks

mutual

/-- The numbers in a content that is written are the ranks of its tokens. -/
theorem Model.areRanks_encode {table : List String} :
    ∀ (model : Model) {value : Json}, model.encode table = .ok value →
      AreRanks table model.occurrences value.naturals
  | .token name, value, h => by
    obtain ⟨rank, hrank, rfl⟩ := map_eq_ok_iff.mp h
    exact .cons hrank .nil
  | .sequence blocks, value, h | .choice blocks, value, h | .interleave blocks, value, h => by
    obtain ⟨items, hitems, hvalue⟩ := bind_eq_ok_iff.mp h
    obtain rfl := Except.ok.inj hvalue
    have hranks := areRanks_encodeAll blocks hitems
    rwa [← append_nil (Json.naturalsAll items)] at hranks
  | .optional block, value, h | .kleene block, value, h | .plus block, value, h => by
    obtain ⟨item, hitem, rfl⟩ := map_eq_ok_iff.mp h
    have hranks := areRanks_encode block hitem
    rwa [← append_nil (Json.naturals item)] at hranks

theorem Model.areRanks_encodeAll {table : List String} :
    ∀ (blocks : List Model) {items : List Json}, Model.encodeAll table blocks = .ok items →
      AreRanks table (Model.occurrencesAll blocks) (Json.naturalsAll items)
  | [], items, h => by
    obtain rfl := Except.ok.inj h
    exact .nil
  | block :: rest, items, h => by
    obtain ⟨item, hitem, h⟩ := bind_eq_ok_iff.mp h
    obtain ⟨others, hothers, h⟩ := bind_eq_ok_iff.mp h
    obtain rfl := Except.ok.inj h
    exact (areRanks_encode block hitem).append (areRanks_encodeAll rest hothers)

end

theorem CompactElement.naturals_toJson (compact : CompactElement) :
    compact.toJson.naturals = compact.name :: compact.attributes ++ compact.content.naturals := by
  show [compact.name] ++ ([] ++ (Json.naturalsAll (compact.attributes.map Json.nat) ++
    (compact.content.naturals ++ []))) = _
  rw [Json.naturalsAll_map_nat, append_nil, nil_append, singleton_append, cons_append]

/-- The numbers in an entry that is written are the ranks of the names that it uses. -/
theorem ElementSchema.areRanks_toCompact {table : List String} {element : ElementSchema}
    {compact : CompactElement} (h : element.toCompact table = .ok compact) :
    AreRanks table element.literals compact.toJson.naturals := by
  obtain ⟨attributes, hattributes, h⟩ := bind_eq_ok_iff.mp h
  obtain ⟨name, hname, h⟩ := bind_eq_ok_iff.mp h
  obtain ⟨content, hcontent, h⟩ := bind_eq_ok_iff.mp h
  obtain rfl := Except.ok.inj h
  have hranks : AreRanks table element.attributes attributes := mapM_eq_ok_iff.mp hattributes
  rw [CompactElement.naturals_toJson]
  exact AreRanks.append (.cons hname hranks) (Model.areRanks_encode _ hcontent)

theorem areRanks_flatMap {table : List String} {elements : List ElementSchema}
    {compacts : List CompactElement}
    (h : Forall₂ (fun element compact => element.toCompact table = .ok compact) elements compacts) :
    AreRanks table (elements.flatMap ElementSchema.literals)
      (compacts.flatMap fun compact => compact.toJson.naturals) := by
  induction h with
  | nil => exact .nil
  | cons hcompact _ ih => exact (ElementSchema.areRanks_toCompact hcompact).append ih

/-- **The numbers in a schema that is written are the ranks of the names that it uses.** -/
theorem Schema.areRanks_toCompact {schema : Schema} {document : CompactDocument}
    (h : schema.toCompact = .ok document) :
    document.literals = schema.literalTable ∧
      AreRanks schema.literalTable schema.literals document.schemaJson.naturals := by
  obtain ⟨compacts, hcompacts, h⟩ := bind_eq_ok_iff.mp h
  obtain ⟨start, hstart, h⟩ := bind_eq_ok_iff.mp h
  obtain rfl := Except.ok.inj h
  refine ⟨rfl, ?_⟩
  have hnaturals : (CompactDocument.schemaJson ⟨schema.literalTable, start, compacts⟩).naturals =
      start :: compacts.flatMap fun compact => compact.toJson.naturals := by
    show [start] ++ (Json.naturalsAll (compacts.map (·.toJson)) ++ []) = _
    rw [Json.naturalsAll_eq_flatMap, flatMap_map, append_nil, singleton_append]
  rw [hnaturals]
  exact .cons hstart (areRanks_flatMap (mapM_eq_ok_iff.mp hcompacts))

/-! ### The table of a schema -/

/-- The names that a schema uses. -/
theorem Schema.mem_literals_iff {schema : Schema} {name : String} : name ∈ schema.literals ↔
    name = schema.start ∨ ∃ element ∈ schema.elements.values,
      name = element.name ∨ name ∈ element.attributes ∨
        name ∈ element.expression.model.occurrences := by
  simp only [literals, ElementSchema.literals, mem_cons, mem_flatMap, mem_append, or_assoc]

/-- **Literal tables are complete, minimal and ordered by use.** Every schema can be written. The
table has no name twice, and it holds the name of the start element, the names of all elements and
attributes and the tokens of all contents, and nothing else. The ranks in the text of the schema
lead back to the names that it uses, one by one. A rank that comes later in the table occurs no more
often there, and where two occur as often as each other, their names stand in the order of their
first use. -/
theorem Schema.exists_toCompact_ranked (schema : Schema) :
    ∃ document, schema.toCompact = .ok document ∧ schema.toText = .ok document.text ∧
      document.literals.Nodup ∧
      (∀ name, name ∈ document.literals ↔
        name = schema.start ∨ ∃ element ∈ schema.elements.values,
          name = element.name ∨ name ∈ element.attributes ∨
            name ∈ element.expression.model.occurrences) ∧
      document.schemaJson.naturals.map (document.literals[·]?) = schema.literals.map some ∧
      ∀ rank later name other, rank < later → document.literals[rank]? = some name →
        document.literals[later]? = some other →
          document.schemaJson.naturals.count later ≤ document.schemaJson.naturals.count rank ∧
            (document.schemaJson.naturals.count later = document.schemaJson.naturals.count rank →
              schema.literals.idxOf name < schema.literals.idxOf other) := by
  obtain ⟨document, hdocument⟩ := schema.exists_toCompact
  obtain ⟨htable, hranks⟩ := areRanks_toCompact hdocument
  have hnodup : schema.literalTable.Nodup := nodup_rankedLiterals schema.literals
  refine ⟨document, hdocument, map_eq_ok_iff.mpr ⟨document, hdocument, rfl⟩, ?_⟩
  rw [htable]
  refine ⟨hnodup, fun name => mem_rankedLiterals.trans mem_literals_iff, hranks.map_getElem?, ?_⟩
  intro rank later name other hlt hname hother
  rw [hranks.count_eq hnodup hname, hranks.count_eq hnodup hother]
  obtain ⟨hrank, rfl⟩ := List.getElem?_eq_some_iff.mp hname
  obtain ⟨hlater, rfl⟩ := List.getElem?_eq_some_iff.mp hother
  exact pairwise_iff_getElem.mp (pairwise_rankedLiterals schema.literals) rank later
    hrank hlater hlt

end RelaxSchema
