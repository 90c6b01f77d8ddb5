import RelaxSchema.Proofs.Automaton.Determinisation
import RelaxSchema.Proofs.Limits
import RelaxSchema.Content.Expression

/-!
# Automata and limits

* `Model.relaxes_toDfa`: wider limits give the same automaton, not a different one;
* `Expression.compile_unique`: so two compilations of a content model differ at most in whether they
  succeed.

The limit is also the number of sets that may be explored. A search that is not refused has explored
all sets that it has met, so it makes no difference that it might have gone on.
-/

namespace RelaxSchema

variable {limits limits' : Limits}

namespace SubsetTable

variable {nfa : Nfa}

theorem relaxes_number (hle : limits.maxDfaStates ≤ limits'.maxDfaStates) (set : List Nat)
    (table : SubsetTable) : Relaxes (number limits set table) (number limits' set table) := by
  unfold number
  split
  · exact .refl _
  · have hbound : limits.bound .dfaStates ≤ limits'.bound .dfaStates := hle
    exact (Limits.relaxes_check hbound _).bind fun _ _ => .refl _

theorem relaxes_numberAll (hle : limits.maxDfaStates ≤ limits'.maxDfaStates)
    (entries : List (String × List Nat)) (table : SubsetTable) :
    Relaxes (numberAll limits entries table) (numberAll limits' entries table) := by
  induction entries generalizing table with
  | nil => exact .refl _
  | cons entry rest ih =>
    obtain ⟨token, set⟩ := entry
    rw [numberAll, numberAll]
    exact (relaxes_number hle set table).bind fun first _ => (ih first.2).bind fun _ _ => .refl _

theorem relaxes_explore (hle : limits.maxDfaStates ≤ limits'.maxDfaStates) (fuel : Nat)
    (table : SubsetTable) :
    Relaxes (explore nfa limits fuel table) (explore nfa limits' fuel table) := by
  induction fuel generalizing table with
  | zero => exact .refl _
  | succ fuel ih =>
    rw [explore, explore]
    split
    · exact .refl _
    · exact (relaxes_numberAll hle _ _).bind fun _ _ => ih _

end SubsetTable

theorem Nfa.relaxes_determinize (hle : limits.maxDfaStates ≤ limits'.maxDfaStates) (nfa : Nfa)
    (fragment : Fragment) :
    Relaxes (nfa.determinize fragment limits) (nfa.determinize fragment limits') := by
  have hfuel : max 1 limits.maxDfaStates ≤ max 1 limits'.maxDfaStates := by omega
  -- The search under the tight limits may go on as long as the other one.
  rw [determinize, ← SubsetTable.explore_eq_of_le hfuel fun table htable =>
    (SubsetTable.explore_spec (SubsetTable.isSound_start _) (Nat.le_add_left _ _) htable).2.ge]
  exact (SubsetTable.relaxes_explore hle _ _).bind fun _ _ => .refl _

/-- **Wider limits give the same automaton.** -/
theorem Model.relaxes_toDfa (hle : limits.maxDfaStates ≤ limits'.maxDfaStates) (model : Model)
    (element : String) : Relaxes (model.toDfa element limits) (model.toDfa element limits') := by
  unfold toDfa
  split
  · exact Nfa.relaxes_determinize hle _ _
  · exact .refl _

/-- **Wider limits give the same expression.** -/
theorem Expression.relaxes_compile
    (hle : limits.maxDfaStates ≤ limits'.maxDfaStates) (name : String) (model : Model) :
    Relaxes (compile name model limits) (compile name model limits') := by
  have hengine : Relaxes (Engine.compile name model limits)
      (Engine.compile name model limits') := by
    unfold Engine.compile
    split
    · exact ((Relaxes.mapM fun block _ => block.relaxes_toDfa hle name).map _).map _
    · exact (model.relaxes_toDfa hle name).map _
  exact hengine.bind fun _ _ => .refl _

/-- A content model has one expression, whatever the limits are. -/
theorem Expression.compile_unique {name : String} {model : Model}
    {expression expression' : Expression} (h : compile name model limits = .ok expression)
    (h' : compile name model limits' = .ok expression') : expression = expression' := by
  rcases Nat.le_total limits.maxDfaStates limits'.maxDfaStates with hle | hle
  · exact Except.ok.inj (((relaxes_compile hle name model).ok expression h).symm.trans h')
  · exact Except.ok.inj (h.symm.trans ((relaxes_compile hle name model).ok expression' h'))

end RelaxSchema
