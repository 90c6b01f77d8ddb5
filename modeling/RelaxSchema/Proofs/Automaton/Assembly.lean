import RelaxSchema.Proofs.Automaton.Subsets

/-!
# Automata that are assembled step by step

The steps that `Nfa.build` takes may be taken in any order, and a fragment may be used again after
it was used: then fragments share states, and silent moves lead in circles. The languages of such
fragments are not the ones of `RelaxSchema.Proofs.Automaton.Fragment`.

* `Nfa.Assembled.exists_run_iff_path`: the deterministic automaton still reads what the paths
  through the fragment read.

All that is needed of the table is that moves lead to states and that fragments are held
(`IsStocked`), which every step keeps.
-/

namespace RelaxSchema.Nfa

/-! ### Steps -/

/-- The tables that are assembled by the steps from the empty one, with the fragments that were
returned on the way. A step may use any of them, any number of times. -/
inductive Assembled : Nfa → List Fragment → Prop
  /-- The empty table. -/
  | empty : Assembled {} []
  /-- A token. -/
  | token {nfa : Nfa} {fragments : List Fragment} (name : String) : Assembled nfa fragments →
      Assembled (nfa.token name).2 ((nfa.token name).1 :: fragments)
  /-- Nothing. -/
  | epsilon {nfa : Nfa} {fragments : List Fragment} : Assembled nfa fragments →
      Assembled nfa.epsilon.2 (nfa.epsilon.1 :: fragments)
  /-- Fragments one after the other. -/
  | append {nfa : Nfa} {fragments parts : List Fragment} : Assembled nfa fragments →
      parts ⊆ fragments → Assembled (nfa.append parts).2 ((nfa.append parts).1 :: fragments)
  /-- Any of some fragments. -/
  | merge {nfa : Nfa} {fragments parts : List Fragment} : Assembled nfa fragments →
      parts ⊆ fragments → Assembled (nfa.merge parts).2 ((nfa.merge parts).1 :: fragments)
  /-- A fragment or nothing. -/
  | optional {nfa : Nfa} {fragments : List Fragment} {inner : Fragment} : Assembled nfa fragments →
      inner ∈ fragments → Assembled (nfa.optional inner).2 ((nfa.optional inner).1 :: fragments)
  /-- A fragment any number of times. -/
  | kleene {nfa : Nfa} {fragments : List Fragment} {inner : Fragment} : Assembled nfa fragments →
      inner ∈ fragments → Assembled (nfa.kleene inner).2 ((nfa.kleene inner).1 :: fragments)
  /-- A fragment at least once. -/
  | plus {nfa : Nfa} {fragments : List Fragment} {inner : Fragment} : Assembled nfa fragments →
      inner ∈ fragments → Assembled (nfa.plus inner).2 ((nfa.plus inner).1 :: fragments)
  /-- A content model. -/
  | built {nfa new : Nfa} {fragments : List Fragment} {fragment : Fragment} (element : String)
      (model : Model) : Assembled nfa fragments → build element model nfa = (.ok fragment, new) →
      Assembled new (fragment :: fragments)
  /-- A content model that has no fragment; what was added for it stays. -/
  | refused {nfa new : Nfa} {fragments : List Fragment} {error : Error} (element : String)
      (model : Model) : Assembled nfa fragments → build element model nfa = (.error error, new) →
      Assembled new fragments

/-! ### What a step keeps -/

/-- A step that returns a fragment: no state went away, moves lead to states, and the fragment is
held. -/
structure Adds (old new : Nfa) (fragment : Fragment) : Prop where
  /-- No state went away. -/
  size_le : old.states.size ≤ new.states.size
  /-- Moves lead to states. -/
  isClosed : new.IsClosed
  /-- Both ends of the fragment are states. -/
  holds : new.Holds fragment

variable {nfa new : Nfa} {fragments : List Fragment} {fragment inner : Fragment}

/-- All states of a closed table were added to the empty one. -/
theorem IsClosed.extends (h : nfa.IsClosed) : Extends {} nfa where
  size_le := Nat.zero_le _
  silentFrom_eq s hs := absurd hs (Nat.not_lt_zero s)
  movesFrom_eq s hs := absurd hs (Nat.not_lt_zero s)
  added s _ t ht := ⟨Nat.zero_le t, h s t ht⟩

theorem Holds.isAdded (h : nfa.Holds fragment) : IsAdded {} nfa fragment :=
  ⟨Nat.zero_le _, Nat.zero_le _, h⟩

theorem IsClosed.grownBy (hclosed : nfa.IsClosed) (hheld : nfa.Holds inner) :
    GrownBy {} nfa inner :=
  ⟨hclosed.extends, hheld.isAdded⟩

theorem adds_of_grown (hle : nfa.states.size ≤ new.states.size) (h : GrownBy {} new fragment) :
    Adds nfa new fragment :=
  ⟨hle, h.grown.isClosed isClosed_empty, h.added.holds⟩

theorem GrownBy.adds (h : GrownBy nfa new fragment) (hclosed : nfa.IsClosed) :
    Adds nfa new fragment :=
  ⟨h.grown.size_le, h.grown.isClosed hclosed, h.added.holds⟩

section Steps

variable (hclosed : nfa.IsClosed)

include hclosed

theorem adds_append (hheld : ∀ fragment ∈ fragments, nfa.Holds fragment) :
    Adds nfa (nfa.append fragments).2 (nfa.append fragments).1 :=
  adds_of_grown (size_le_append nfa fragments)
    (grown_append hclosed.extends fun fragment hmem => (hheld fragment hmem).isAdded)

theorem adds_merge (hheld : ∀ fragment ∈ fragments, nfa.Holds fragment) :
    Adds nfa (nfa.merge fragments).2 (nfa.merge fragments).1 :=
  adds_of_grown (by rw [size_merge]; exact Nat.le_add_right _ _)
    (grown_merge hclosed.extends fun fragment hmem => (hheld fragment hmem).isAdded)

theorem adds_optional (hheld : nfa.Holds inner) :
    Adds nfa (nfa.optional inner).2 (nfa.optional inner).1 :=
  adds_of_grown (by rw [size_optional]; exact Nat.le_add_right _ _) (hclosed.grownBy hheld).optional

theorem adds_kleene (hheld : nfa.Holds inner) :
    Adds nfa (nfa.kleene inner).2 (nfa.kleene inner).1 :=
  adds_of_grown (by rw [size_kleene]; exact Nat.le_add_right _ _) (hclosed.grownBy hheld).kleene

theorem adds_plus (hheld : nfa.Holds inner) : Adds nfa (nfa.plus inner).2 (nfa.plus inner).1 :=
  adds_of_grown (by rw [size_plus]; exact Nat.le_add_right _ _) (hclosed.grownBy hheld).plus

end Steps

/-! ### What all steps keep -/

/-- Moves lead to states, and all fragments are held. -/
structure IsStocked (nfa : Nfa) (fragments : List Fragment) : Prop where
  /-- Moves lead to states. -/
  isClosed : nfa.IsClosed
  /-- The fragments are held. -/
  holds : ∀ fragment ∈ fragments, nfa.Holds fragment

theorem IsStocked.add (h : IsStocked nfa fragments) (hadds : Adds nfa new fragment) :
    IsStocked new (fragment :: fragments) where
  isClosed := hadds.isClosed
  holds := List.forall_mem_cons.mpr
    ⟨hadds.holds, fun other hother => (h.holds other hother).mono hadds.size_le⟩

/-- **Every step keeps the table closed and the fragments held.** -/
theorem Assembled.isStocked (h : Assembled nfa fragments) : IsStocked nfa fragments := by
  induction h with
  | empty => exact ⟨isClosed_empty, by simp⟩
  | token name _ ih => exact ih.add ((grown_token _ name).adds ih.isClosed)
  | epsilon _ ih => exact ih.add ((built_epsilon _).toGrownBy.adds ih.isClosed)
  | append _ hparts ih =>
    exact ih.add (adds_append ih.isClosed fun part hmem => ih.holds part (hparts hmem))
  | merge _ hparts ih =>
    exact ih.add (adds_merge ih.isClosed fun part hmem => ih.holds part (hparts hmem))
  | optional _ hinner ih => exact ih.add (adds_optional ih.isClosed (ih.holds _ hinner))
  | kleene _ hinner ih => exact ih.add (adds_kleene ih.isClosed (ih.holds _ hinner))
  | plus _ hinner ih => exact ih.add (adds_plus ih.isClosed (ih.holds _ hinner))
  | @built nfa new fragments fragment element model _ hbuild ih =>
    have hleaves := leaves_build element model nfa
    rw [hbuild] at hleaves
    exact ih.add (GrownBy.adds ⟨hleaves.grown, hleaves.added fragment rfl⟩ ih.isClosed)
  | @refused nfa new fragments error element model _ hbuild ih =>
    have hgrown := (leaves_build element model nfa).grown
    rw [hbuild] at hgrown
    exact ⟨hgrown.isClosed ih.isClosed, fun other hother =>
      (ih.holds other hother).mono hgrown.size_le⟩

/-! ### Determinisation -/

/-- **The subset construction is right for everything that can be assembled.** Whenever a fragment
has a deterministic automaton, which it has if there is room for all sets of states, a list of
tokens is read from the start without a missing move and may end there exactly if it is spelled by a
path from the entry of the fragment to its exit. -/
theorem Assembled.exists_run_iff_path (h : Assembled nfa fragments) (hmem : fragment ∈ fragments)
    (limits : Limits) :
    (2 ^ nfa.states.size ≤ limits.maxDfaStates → ∃ dfa, nfa.determinize fragment limits = .ok dfa) ∧
    ∀ dfa, nfa.determinize fragment limits = .ok dfa → ∀ word : List String,
      (∃ state, word.foldlM dfa.consume 0 = some state ∧ dfa.isFinished state = true) ↔
        nfa.Path fragment.start word fragment.finish := by
  obtain ⟨hclosed, hholds⟩ := h.isStocked
  have hheld := hholds fragment hmem
  refine ⟨fun hroom => ?_, fun dfa hdfa word => ?_⟩
  · rcases determinize_cases hclosed hheld limits with ⟨dfa, hdfa, -⟩ | ⟨-, hlarge⟩
    · exact ⟨dfa, hdfa⟩
    · -- There are no more sets than subsets of the states.
      rw [encard_subsets hclosed hheld.1] at hlarge
      have hlt : max 1 limits.maxDfaStates < 2 ^ nfa.states.size := by
        exact_mod_cast hlarge.trans_le (encard_meets_le nfa [fragment.start])
      exact absurd ((le_max_right _ _).trans_lt hlt) (not_lt.mpr hroom)
  · show word ∈ dfa.language ↔ word ∈ nfa.reads fragment
    rw [language_determinize hheld hdfa]

/-- The fragment of a token that was put into a loop afterwards, and the loop into another one. It
reads the token more than once now, and silent moves lead in a circle. -/
theorem exists_run_iff_path_shared :
    let nfa : Nfa :=
  ⟨#[⟨[("a", 1)], []⟩, ⟨[], [0, 3]⟩, ⟨[], [3, 0]⟩, ⟨[], [2, 5]⟩, ⟨[], [5, 2]⟩, ⟨[], []⟩]⟩
    let fragments : List Fragment := [⟨4, 5⟩, ⟨2, 3⟩, ⟨0, 1⟩]
    let dfa : Dfa := ⟨#[⟨[("a", 1)], false⟩, ⟨[("a", 1)], true⟩]⟩
    Assembled nfa fragments ∧ nfa.determinize ⟨0, 1⟩ {} = .ok dfa ∧ nfa.Path 0 ["a", "a"] 1 := by
  intro nfa fragments dfa
  have htoken : Assembled (({} : Nfa).token "a").2 [⟨0, 1⟩] := .token "a" .empty
  have hloop : Assembled ((({} : Nfa).token "a").2.kleene ⟨0, 1⟩).2 [⟨2, 3⟩, ⟨0, 1⟩] :=
    htoken.kleene (List.mem_singleton_self _)
  have hassembled : Assembled nfa fragments := hloop.kleene List.mem_cons_self
  have hmem : (⟨0, 1⟩ : Fragment) ∈ fragments := by decide
  have hdfa : nfa.determinize ⟨0, 1⟩ {} = .ok dfa := by cbv
  have hrun := (hassembled.exists_run_iff_path hmem {}).2 dfa hdfa ["a", "a"]
  exact ⟨hassembled, hdfa, hrun.mp ⟨1, by decide, by decide⟩⟩

end RelaxSchema.Nfa
