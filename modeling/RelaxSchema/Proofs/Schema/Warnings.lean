import Mathlib
import RelaxSchema.Proofs.Content.Allowed
import RelaxSchema.Proofs.Schema.Issues

/-!
# The list of warnings

* `Schema.Search`: the search for reachable names as a loop over a queue, with the names that were
  met beside it;
* `Schema.exists_rounds`: the loop ends for every schema, whatever cycles and names without an entry
  there are, and has then met the reachable names;
* `Schema.issues_eq`: the warnings, in their order.

A round takes one name from the queue and adds the children that were not met before. These are all
mentioned somewhere in the schema, so the number of mentioned names that are still to be met and of
those in the queue goes down in each round (`Search.roundsLeft_round`). What every round keeps
(`Search.IsSound`) says at the end that nothing was left out.
-/

namespace RelaxSchema.Schema

variable {schema : Schema}

/-! ### Rounds of the search -/

/-- How far the search for reachable names has come. -/
structure Search where
  /-- The names that were met. -/
  found : List String
  /-- Those the children of which are still to be looked at, in the order in which they were met. -/
  pending : List String

namespace Search

/-- The search that has met one name. -/
def start (name : String) : Search := ⟨[name], [name]⟩

/-- The children of a name that are not among those that were met. -/
def newChildren (schema : Schema) (found : List String) (name : String) : List String :=
  (schema.childrenOf name).filter fun child => child ∉ found

/-- Looks at the children of the next name: those that were not met before are met, and wait. -/
def round (schema : Schema) (search : Search) : Search :=
  match search.pending with
  | [] => search
  | name :: rest =>
    let new := newChildren schema search.found name
    ⟨search.found ++ new, rest ++ new⟩

theorem round_cons (found : List String) (name : String) (rest : List String) :
    round schema ⟨found, name :: rest⟩ =
      ⟨found ++ newChildren schema found name, rest ++ newChildren schema found name⟩ := rfl

theorem mem_newChildren_iff {found : List String} {name child : String} :
    child ∈ newChildren schema found name ↔ schema.Allows name child ∧ child ∉ found := by
  rw [newChildren, List.mem_filter, mem_childrenOf_iff, decide_eq_true_iff]

/-- What every round keeps. -/
structure IsSound (schema : Schema) (search : Search) : Prop where
  /-- The start element was met. -/
  start_mem : schema.start ∈ search.found
  /-- What waits was met. -/
  pending_subset : search.pending ⊆ search.found
  /-- Chains of children lead to what was met. -/
  leadsTo : ∀ name ∈ search.found, schema.LeadsTo schema.start name
  /-- The children of what does not wait were met. -/
  closed : ∀ parent ∈ search.found, parent ∉ search.pending →
    ∀ child, schema.Allows parent child → child ∈ search.found

theorem isSound_start (schema : Schema) : (start schema.start).IsSound schema where
  start_mem := List.mem_cons_self
  pending_subset := List.Subset.refl _
  leadsTo name hname := by
    obtain rfl := List.mem_singleton.mp hname
    exact .refl
  closed _ hparent hwaits := absurd hparent hwaits

theorem IsSound.round {search : Search} (h : search.IsSound schema) :
    (search.round schema).IsSound schema := by
  obtain ⟨found, pending⟩ := search
  cases pending with
  | nil => exact h
  | cons name rest =>
    have hname : schema.LeadsTo schema.start name :=
      h.leadsTo name (h.pending_subset List.mem_cons_self)
    rw [round_cons]
    refine ⟨List.mem_append_left _ h.start_mem, fun other hother => ?_, fun other hother => ?_,
      fun parent hparent hwaits child hallows => ?_⟩
    · rcases List.mem_append.mp hother with hrest | hnew
      · exact List.mem_append_left _ (h.pending_subset (List.mem_cons_of_mem _ hrest))
      · exact List.mem_append_right _ hnew
    · rcases List.mem_append.mp hother with hold | hnew
      · exact h.leadsTo other hold
      · exact hname.tail (mem_newChildren_iff.mp hnew).1
    · -- The name that was taken is the only one whose children are looked at now.
      obtain ⟨hrest, hnew⟩ := not_or.mp (List.mem_append.not.mp hwaits)
      have hold : parent ∈ found := (List.mem_append.mp hparent).resolve_right hnew
      rw [List.mem_append, mem_newChildren_iff]
      by_cases hsame : parent = name
      · subst hsame
        exact (Classical.em (child ∈ found)).imp_right fun hchild => ⟨hallows, hchild⟩
      · exact Or.inl
          (h.closed parent hold (List.not_mem_cons_of_ne_of_not_mem hsame hrest) child hallows)

/-- The mentioned names that are still to be met. -/
def unmet (schema : Schema) (found : List String) : List String :=
  schema.mentionedNames.filter fun name => name ∉ found

/-- The children that are new are those that were to be met. -/
theorem newChildren_perm (schema : Schema) (found : List String) (name : String) :
    (newChildren schema found name).Perm (met (schema.childrenOf name) (unmet schema found)) := by
  have hnodup : (schema.childrenOf name).Nodup := by
    rw [childrenOf]
    cases schema.find? name with
    | none => exact List.nodup_nil
    | some entry => exact (entry.expression.ordered_allowed.imp fun hless => hless.ne).filter _
  have hunmet : (unmet schema found).Nodup := (nodup_distinct _).filter _
  refine (List.perm_ext_iff_of_nodup (hnodup.filter _) (hunmet.filter _)).mpr fun child => ?_
  rw [← newChildren, ← met, mem_newChildren_iff, mem_met_iff, mem_childrenOf_iff, unmet,
    List.mem_filter, decide_eq_true_iff]
  exact ⟨fun h => ⟨⟨mem_mentionedNames_of_allows h.1, h.2⟩, h.1⟩, fun h => ⟨h.2, h.1.2⟩⟩

theorem unmet_append_newChildren (schema : Schema) (found : List String) (name : String) :
    unmet schema (found ++ newChildren schema found name) =
      notMet (schema.childrenOf name) (unmet schema found) := by
  rw [unmet, unmet, notMet, List.filter_filter]
  refine List.filter_congr fun child _ => ?_
  rw [Bool.eq_iff_iff, decide_eq_true_iff, List.mem_append, mem_newChildren_iff, Bool.and_eq_true,
    Bool.not_eq_true', ← Bool.not_eq_true, List.contains_iff_mem, mem_childrenOf_iff,
    decide_eq_true_iff]
  tauto

/-- The number of rounds to go: one for each name that is to be met or waits. -/
def roundsLeft (schema : Schema) (search : Search) : Nat :=
  (unmet schema search.found).length + search.pending.length

/-- Each round takes one name. -/
theorem roundsLeft_round (schema : Schema) {search : Search} (h : search.pending ≠ []) :
    (search.round schema).roundsLeft schema + 1 = search.roundsLeft schema := by
  obtain ⟨found, pending⟩ := search
  cases pending with
  | nil => exact absurd rfl h
  | cons name rest =>
    have hlength := length_met_add_length_notMet (schema.childrenOf name) (unmet schema found)
    simp only [round_cons, roundsLeft, unmet_append_newChildren, List.length_append,
      (newChildren_perm schema found name).length_eq, List.length_cons]
    omega

end Search

/-- **The search ends.** After some rounds nothing waits, so that further rounds change nothing, and
the names that were met are those that chains of children lead to. -/
theorem exists_rounds (schema : Schema) : ∃ last : Search,
    (∃ rounds, ∀ more, rounds ≤ more → (Search.round schema)^[more] (.start schema.start) = last) ∧
      last.pending = [] ∧ ∀ name, name ∈ last.found ↔ schema.LeadsTo schema.start name := by
  -- Whatever the state, it is sound, and there are as many rounds to go as names.
  suffices hsearch : ∀ (left : Nat) (search : Search), search.IsSound schema →
      search.roundsLeft schema = left → ∃ rounds,
        ((Search.round schema)^[rounds] search).pending = [] ∧
          ((Search.round schema)^[rounds] search).IsSound schema by
    obtain ⟨rounds, hpending, hsound⟩ := hsearch _ _ (Search.isSound_start schema) rfl
    refine ⟨_, ⟨rounds, fun more hmore => ?_⟩, hpending, fun name =>
      ⟨hsound.leadsTo name, fun h => ?_⟩⟩
    · obtain ⟨further, rfl⟩ := Nat.exists_eq_add_of_le' hmore
      rw [Function.iterate_add_apply]
      refine Function.iterate_fixed ?_ further
      rw [Search.round, hpending]
    · induction h with
      | refl => exact hsound.start_mem
      | tail _ hallows ih =>
        exact hsound.closed _ ih (by rw [hpending]; exact List.not_mem_nil) _ hallows
  intro left
  induction left with
  | zero =>
    intro search hsound hleft
    exact ⟨0, List.length_eq_zero_iff.mp (Nat.add_eq_zero_iff.mp hleft).2, hsound⟩
  | succ left ih =>
    intro search hsound hleft
    by_cases hpending : search.pending = []
    · exact ⟨0, hpending, hsound⟩
    · have hround := Search.roundsLeft_round schema hpending
      obtain ⟨rounds, hlast⟩ := ih (search.round schema) hsound.round (by omega)
      exact ⟨rounds + 1, hlast⟩

/-! ### The warnings in order -/

/-- Whether chains of children lead to a name is decided by the search. -/
instance decidableLeadsTo : DecidablePred (schema.LeadsTo schema.start) :=
  fun _ => decidable_of_iff _ mem_reachable_iff

/-- **The warnings are complete, exact and in order.** The search for the reachable names ends.
There is one warning for each element that no chain of children leads to from the start element, in
the order of the elements, which have different names. Then for each element, in the same order,
there is one for each of its allowed tokens that is neither character data nor the name of an
element, in ascending order. -/
theorem issues_eq (schema : Schema) :
    (∃ last : Search,
      (∃ rounds, ∀ more, rounds ≤ more →
        (Search.round schema)^[more] (.start schema.start) = last) ∧
        last.pending = [] ∧ ∀ name, name ∈ last.found ↔ name ∈ schema.reachable) ∧
    schema.issues =
      (schema.elements.names.filter fun name => ¬ schema.LeadsTo schema.start name).map
        schema.unreachableIssue ++
      (schema.elements.values.flatMap fun entry =>
        (entry.expression.allowed.filter fun token =>
          token ≠ textToken ∧ token ∉ schema.elements.names).map (undeclaredIssue entry)) ∧
    schema.elements.names.Nodup ∧
    ∀ entry ∈ schema.elements.values, Alphabet.Ordered entry.expression.allowed := by
  obtain ⟨last, hrounds, hpending, hfound⟩ := exists_rounds schema
  refine ⟨⟨last, hrounds, hpending, fun name => (hfound name).trans mem_reachable_iff.symm⟩, ?_,
    schema.elements.nodup, fun entry _ => entry.expression.ordered_allowed⟩
  have hunreached : (schema.elements.names.filter fun name => !schema.reachable.contains name) =
      schema.elements.names.filter fun name => ¬ schema.LeadsTo schema.start name := by
    refine List.filter_congr fun name _ => ?_
    rw [Bool.eq_iff_iff, Bool.not_eq_true', ← Bool.not_eq_true, List.contains_iff_mem,
      mem_reachable_iff, decide_eq_true_iff]
  have hundeclared : ∀ entry,
      schema.undeclaredChildren entry = entry.expression.allowed.filter fun token =>
      token ≠ textToken ∧ token ∉ schema.elements.names := by
    intro entry
    rw [undeclaredChildren, childNames, List.filter_filter]
    refine List.filter_congr fun token _ => ?_
    have hdeclared : schema.elements.contains token = true ↔ token ∈ schema.elements.names := by
      rw [Catalogue.contains, Option.isSome_iff_exists, Catalogue.mem_names_iff]
    rw [Bool.eq_iff_iff, Bool.and_eq_true, Bool.not_eq_true', ← Bool.not_eq_true, hdeclared,
      decide_eq_true_iff, decide_eq_true_iff, and_comm]
  simp only [issues, hunreached, hundeclared]

end RelaxSchema.Schema
