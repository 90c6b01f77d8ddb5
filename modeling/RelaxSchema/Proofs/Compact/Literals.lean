import RelaxSchema.Compact.Literals
import RelaxSchema.Proofs.Traversal

/-!
# Literal tables

* `literalAt_of_rankOf`: looking a rank up gives back the name it was given to;
* `rankOf_of_literalAt`: a name has the rank it is found at, if no name is there twice;
* `mem_rankedLiterals`: the table of some uses holds exactly the names used.
-/

namespace RelaxSchema

variable {table : List String} {name : String} {rank : Nat}

theorem rankOf_eq_ok_iff : rankOf table name = .ok rank ↔ table.idxOf? name = some rank := by
  unfold rankOf
  cases table.idxOf? name <;> simp

theorem literalAt_eq_ok_iff : literalAt table rank = .ok name ↔ table[rank]? = some name := by
  unfold literalAt
  cases table[rank]? <;> simp

theorem getElem?_of_idxOf? (h : table.idxOf? name = some rank) : table[rank]? = some name := by
  induction table generalizing rank with
  | nil => simp at h
  | cons first rest ih =>
    rw [List.idxOf?_cons] at h
    split at h
    · rename_i hfirst
      obtain rfl := Option.some.inj h
      rw [List.getElem?_cons_zero, eq_of_beq hfirst]
    · obtain ⟨later, hlater, rfl⟩ := Option.map_eq_some_iff.mp h
      rw [List.getElem?_cons_succ]
      exact ih hlater

/-- **A rank leads back to its name.** -/
theorem literalAt_of_rankOf (h : rankOf table name = .ok rank) : literalAt table rank = .ok name :=
  literalAt_eq_ok_iff.mpr (getElem?_of_idxOf? (rankOf_eq_ok_iff.mp h))

/-- **A name has the rank that it is found at**, if the table holds no name twice. -/
theorem rankOf_of_literalAt (hnodup : table.Nodup) (h : literalAt table rank = .ok name) :
    rankOf table name = .ok rank := by
  obtain ⟨hlt, hname⟩ := List.getElem?_eq_some_iff.mp (literalAt_eq_ok_iff.mp h)
  refine rankOf_eq_ok_iff.mpr
    (List.idxOf?_eq_some_iff.mpr ⟨hlt, hname, fun earlier hearlier hsame => ?_⟩)
  exact Nat.ne_of_lt hearlier ((hnodup.getElem_inj_iff).mp (hsame.trans hname.symm))

theorem exists_literalAt_iff : (∃ name, literalAt table rank = .ok name) ↔ rank < table.length := by
  simp only [literalAt_eq_ok_iff, List.getElem?_eq_some_iff]
  exact ⟨fun ⟨_, hlt, _⟩ => hlt, fun hlt => ⟨_, hlt, rfl⟩⟩

theorem rank_lt_length (h : rankOf table name = .ok rank) : rank < table.length := by
  obtain ⟨hlt, -⟩ := List.getElem?_eq_some_iff.mp (getElem?_of_idxOf? (rankOf_eq_ok_iff.mp h))
  exact hlt

theorem exists_rankOf (h : name ∈ table) : ∃ rank, rankOf table name = .ok rank := by
  cases hrank : table.idxOf? name with
  | none => exact absurd h (List.idxOf?_eq_none_iff.mp hrank)
  | some rank => exact ⟨rank, rankOf_eq_ok_iff.mpr hrank⟩

/-- Ranking orders names, and loses none. -/
theorem mem_rankedLiterals {uses : List String} : name ∈ rankedLiterals uses ↔ name ∈ uses := by
  show name ∈ List.map Prod.fst (List.mergeSort _ _) ↔ _
  rw [((List.mergeSort_perm _ _).map Prod.fst).mem_iff, List.map_map]
  show name ∈ (distinct uses).map id ↔ _
  rw [List.map_id, mem_distinct]

/-! ### The table of a schema -/

theorem Schema.start_mem_literalTable (schema : Schema) : schema.start ∈ schema.literalTable :=
  mem_rankedLiterals.mpr List.mem_cons_self

theorem Schema.mem_literalTable {schema : Schema} {element : ElementSchema}
    (h : element ∈ schema.elements.values) (hname : name ∈ element.literals) :
    name ∈ schema.literalTable :=
  mem_rankedLiterals.mpr (List.mem_cons_of_mem _ (List.mem_flatMap.mpr ⟨element, h, hname⟩))

end RelaxSchema
