import RelaxSchema.Proofs.Automaton.Subsets
import RelaxSchema.Proofs.Content.Rows

/-!
# When content is refused

* `Model.toDfa_cases`: a content model has an automaton exactly if it has no interleave and its
  search meets no more sets of states than the limits allow;
* `Expression.compile_eq_iff`: an expression is compiled exactly if all blocks of its content have
  one, and the first block without one is what the error is about.

An interleave is reported before any set is counted, because no fragment is built for it.
-/

namespace RelaxSchema

open List

/-! ### Content models -/

namespace Model

variable {element : String} {model : Model} {limits : Limits} {error : Error}

/-- The sets of states of the fragment of a content model that its subset construction is about. -/
def subsets (element : String) (model : Model) : Set (Set Nat) :=
  match Nfa.build element model {} with
  | (.ok fragment, nfa) => nfa.subsets fragment.start
  | (.error _, _) => ∅

/-- One automaton reads the words of the model, and it is no larger than the limits allow. -/
structure Fits (element : String) (limits : Limits) (model : Model) : Prop where
  /-- There is no interleave. -/
  interleaves_eq : model.interleaves = []
  /-- There is room for all sets of states; there is room for one in any case. -/
  encard_le : (model.subsets element).encard ≤ (max 1 limits.maxDfaStates : Nat)

/-- Why the model has no automaton, as it is reported. -/
inductive Exceeds (element : String) (limits : Limits) (model : Model) : Error → Prop
  /-- An interleave is in the model, at whatever depth. -/
  | nested : model.interleaves ≠ [] → Exceeds element limits model (.nestedInterleave element)
  /-- There are too many sets of states. The count that is reported is the first one that is too
  high. -/
  | large : model.interleaves = [] →
      (max 1 limits.maxDfaStates : Nat) < (model.subsets element).encard →
      Exceeds element limits model
        (.limitExceeded .dfaStates (max 1 limits.maxDfaStates + 1) limits.maxDfaStates)

theorem Exceeds.not_fits (h : Exceeds element limits model error) :
    ¬ Fits element limits model := by
  rintro ⟨hnone, hle⟩
  cases h with
  | nested hsome => exact hsome hnone
  | large _ hlt => exact absurd hle (not_le.mpr hlt)

/-- There is one reason at most. -/
theorem Exceeds.unique {error' : Error} (h : Exceeds element limits model error)
    (h' : Exceeds element limits model error') : error = error' := by
  cases h with
  | nested hsome =>
    cases h' with
    | nested _ => rfl
    | large hnone _ => exact absurd hnone hsome
  | large hnone _ =>
    cases h' with
    | nested hsome => exact absurd hnone hsome
    | large _ _ => rfl

/-- **A content model has an automaton, or there is a reason why it has none.** -/
theorem toDfa_cases (element : String) (model : Model) (limits : Limits) :
    (∃ dfa, model.toDfa element limits = .ok dfa ∧ Fits element limits model) ∨
      ∃ error, model.toDfa element limits = .error error ∧ Exceeds element limits model error := by
  unfold toDfa
  split
  · rename_i fragment nfa hbuild
    have hbuilt := Nfa.build_spec element model Nfa.isClosed_empty hbuild
    have hnone := Nfa.interleaves_eq_nil_of_build element model hbuild
    have hsubsets : model.subsets element = nfa.subsets fragment.start := by rw [subsets, hbuild]
    rcases Nfa.determinize_cases (hbuilt.grown.isClosed Nfa.isClosed_empty)
        hbuilt.added.holds limits with
      ⟨dfa, hdfa, hcount, hle⟩ | ⟨herror, hlt⟩
    · refine Or.inl ⟨dfa, hdfa, hnone, ?_⟩
      rw [hsubsets, hcount]
      exact_mod_cast hle
    · exact Or.inr ⟨_, herror, .large hnone (hsubsets ▸ hlt)⟩
  · rename_i error nfa hbuild
    obtain ⟨hsome, rfl⟩ := Nfa.build_refused element model hbuild
    exact Or.inr ⟨_, rfl, .nested hsome⟩

theorem exists_toDfa_iff : (∃ dfa, model.toDfa element limits = .ok dfa) ↔
    Fits element limits model := by
  rcases toDfa_cases element model limits with ⟨dfa, hdfa, hfits⟩ | ⟨error, herror, hexceeds⟩
  · exact ⟨fun _ => hfits, fun _ => ⟨dfa, hdfa⟩⟩
  · rw [herror]
    exact ⟨fun ⟨_, hdfa⟩ => by simp at hdfa, fun hfits => absurd hfits hexceeds.not_fits⟩

theorem toDfa_eq_error_iff :
    model.toDfa element limits = .error error ↔ Exceeds element limits model error := by
  rcases toDfa_cases element model limits with ⟨dfa, hdfa, hfits⟩ | ⟨reason, hreason, hexceeds⟩
  · rw [hdfa]
    exact ⟨fun h => by simp at h, fun h => absurd hfits h.not_fits⟩
  · rw [hreason]
    constructor
    · intro h
      exact Except.error.inj h ▸ hexceeds
    · intro h
      rw [hexceeds.unique h]

end Model

/-! ### Expressions -/

namespace Expression

/-- **Content is refused exactly when it must be.** An expression is compiled if and only if each
block of its content, which is one block if it is not unordered, has no interleave in it and meets
no more sets of states than the limits allow. If not, the first block of which this is not true
gives the error. The count of the sets is exact: the search enters no set twice, and it is over
after finitely many rounds for every automaton. -/
theorem compile_eq_iff (name : String) (model : Model) (limits : Limits) :
    ((∃ expression, compile name model limits = .ok expression) ↔
      ∀ block ∈ model.parts, block.Fits name limits) ∧
    (∀ error, compile name model limits = .error error ↔
      ∃ before block after, model.parts = before ++ block :: after ∧
        (∀ other ∈ before, other.Fits name limits) ∧ block.Exceeds name limits error) ∧
    ∀ (nfa : Nfa) (fragment : Fragment),
      SubsetTable.IsOver nfa limits (nfa.closure [fragment.start]) (2 ^ nfa.states.size) ∧
        nfa.determinize fragment limits = (fun table => table.toDfa fragment.finish) <$>
          SubsetTable.explore nfa limits (2 ^ nfa.states.size)
            (SubsetTable.start (nfa.closure [fragment.start])) := by
  have hcompile := row_compile name model limits
  have hblock : ∀ block : Model, (∃ dfa, block.toDfa name limits = .ok dfa) ↔
      block.Fits name limits :=
    fun block => Model.exists_toDfa_iff
  refine ⟨⟨?_, fun hfit => ?_⟩, fun error => ?_, fun nfa fragment =>
    nfa.isOver_two_pow fragment limits⟩
  · rintro ⟨expression, h⟩ block hmem
    have hblocks := Interleave.compile_eq_ok_iff.mp (compile_row h)
    obtain ⟨dfa, -, hdfa⟩ := exists_right_of_forall₂ hblocks hmem
    exact (hblock block).mp ⟨dfa, hdfa⟩
  · obtain ⟨dfas, hdfas⟩ := exists_mapM fun block hmem => (hblock block).mpr (hfit block hmem)
    rw [Interleave.compile, hdfas] at hcompile
    obtain ⟨expression, hexpression, -⟩ := map_eq_ok_iff.mp hcompile
    exact ⟨expression, hexpression⟩
  · rw [← map_eq_error_iff (f := fun expression : Expression => expression.engine.row), hcompile,
      Interleave.compile, map_eq_error_iff, mapM_eq_error_iff]
    simp only [hblock, Model.toDfa_eq_error_iff]

end Expression

end RelaxSchema
