import RelaxSchema.Proofs.Automaton.Assembly

/-!
# Building beside other fragments

* `Nfa.determinize_build`: the deterministic automaton of a fragment, or the error in its place, is
  the same after a content model was built beside it, or was not built because of an interleave.

Building adds states and leaves the moves of those that are there (`leaves_build`). Determinisation
looks at the states that paths lead to from the entry of the fragment, and these are no others than
before (`Extends.path_of_path`). So each set that it meets has the same successors, and it takes the
same rounds (`SubsetTable.explore_congr`).
-/

namespace RelaxSchema

/-! ### Rounds -/

/-- The exploration sees no more of a table than the successors of the sets that are met. -/
theorem SubsetTable.explore_congr {old new : Nfa} {limits : Limits} {initial : List Nat}
    (hsuccessors : ∀ set, old.Meets initial set → new.successors set = old.successors set)
    (fuel : Nat) {table : SubsetTable} (h : IsFaithful old limits initial table) :
    explore new limits fuel table = explore old limits fuel table := by
  induction fuel generalizing table with
  | zero => rfl
  | succ fuel ih =>
    rw [explore, explore]
    cases hset : table.sets[table.rows.size]? with
    | none => rfl
    | some set =>
      show numberAll limits (new.successors set) table >>= _ =
        numberAll limits (old.successors set) table >>= _
      -- A faithful table holds only sets that are met, and a round leaves it faithful.
      rw [hsuccessors set (h.meets set (Array.mem_of_getElem? hset))]
      cases hrow : numberAll limits (old.successors set) table with
      | error error => rfl
      | ok numbered => exact ih (h.round hset hrow)

namespace Nfa

variable {old new nfa : Nfa} {fragment : Fragment} {fragments : List Fragment}

/-! ### Sets that are met -/

theorem Extends.isConfined (h : Extends old new) {state : Nat} (hconfined : old.IsConfined state) :
    new.IsConfined state :=
  fun word t hpath => (hconfined word t (h.path_of_path hconfined hpath)).trans_le h.size_le

theorem Extends.closure_eq (h : Extends old new) {seed : List Nat}
    (hconfined : ∀ state ∈ seed, old.IsConfined state) : new.closure seed = old.closure seed := by
  refine closure_ext fun s => ?_
  rw [mem_closure, mem_closure]
  constructor
  · rintro ⟨-, state, hstate, hpath⟩
    -- No path of the larger automaton leaves the old states, so it is a path of the old one.
    have hold := h.path_of_path (hconfined state hstate) hpath
    exact ⟨hconfined state hstate _ _ hold, state, hstate, hold⟩
  · rintro ⟨hs, state, hstate, hpath⟩
    exact ⟨hs.trans_le h.size_le, state, hstate, hpath.mono h.isWithin⟩

theorem isConfined_of_mem_closure {seed : List Nat} (hseed : ∀ state ∈ seed, nfa.IsConfined state)
    {s : Nat} (hs : s ∈ nfa.closure seed) : nfa.IsConfined s := by
  obtain ⟨-, state, hstate, hpath⟩ := mem_closure.mp hs
  exact (hseed state hstate).of_path hpath

/-- The targets of the moves with a token are confined. -/
theorem isConfined_of_mem_targets {set : List Nat} (hset : ∀ s ∈ set, nfa.IsConfined s)
    (token : String) :
    ∀ state ∈ ((nfa.movesFromAll set).filter fun move => move.1 = token).map Prod.snd,
      nfa.IsConfined state := by
  intro state hstate
  obtain ⟨move, hmove, rfl⟩ := List.mem_map.mp hstate
  obtain ⟨s, hs, hfrom⟩ := mem_movesFromAll.mp (List.mem_filter.mp hmove).1
  exact (hset s hs).of_path (.read hfrom (.done _))

theorem Meets.isConfined {seed set : List Nat} (hseed : ∀ state ∈ seed, nfa.IsConfined state)
    (h : nfa.Meets (nfa.closure seed) set) : ∀ s ∈ set, nfa.IsConfined s := by
  induction h with
  | initial => exact fun s => isConfined_of_mem_closure hseed
  | successor _ hentry ih =>
    obtain ⟨token, -, rfl⟩ := List.mem_map.mp hentry
    exact fun s => isConfined_of_mem_closure (isConfined_of_mem_targets ih token)

theorem Extends.successors_eq (h : Extends old new) {set : List Nat}
    (hset : ∀ s ∈ set, old.IsConfined s) : new.successors set = old.successors set := by
  have hmoves : new.movesFromAll set = old.movesFromAll set :=
    List.flatMap_congr fun s hs => h.movesFrom_eq s (hset s hs).lt_size
  have hsuccessor : ∀ token, new.successor set token = old.successor set token := by
    intro token
    rw [successor, successor, hmoves]
    exact h.closure_eq (isConfined_of_mem_targets hset token)
  rw [successors, successors, hmoves]
  exact List.map_congr_left fun token _ => congrArg (token, ·) (hsuccessor token)

/-! ### Determinisation -/

/-- **States that are added make no difference** for a fragment that led to no other states
before. -/
theorem Extends.determinize_eq (h : Extends old new) (hconfined : old.IsConfined fragment.start)
    (limits : Limits) : new.determinize fragment limits = old.determinize fragment limits := by
  have hseed : ∀ state ∈ [fragment.start], old.IsConfined state := by simpa using hconfined
  rw [determinize, determinize, h.closure_eq hseed, SubsetTable.explore_congr
    (fun set hset => h.successors_eq (hset.isConfined hseed)) _ (SubsetTable.isFaithful_start _)]

/-- **Building disturbs no fragment.** The fragments of a table that was assembled lead to states of
the table only. When a content model is built beside a fragment that leads to states of the table
only, it does so afterwards, and it has the same deterministic automaton, or the same error in its
place, under the same limits. It makes no difference whether the model has a fragment, or whether
building ended at an interleave and left states behind. -/
theorem determinize_build :
    (∀ (nfa : Nfa) (fragments : List Fragment), Assembled nfa fragments →
      ∀ fragment ∈ fragments, nfa.IsConfined fragment.start) ∧
    ∀ (nfa : Nfa) (fragment : Fragment), nfa.IsConfined fragment.start →
      ∀ (element : String) (model : Model) (outcome : Except Error Fragment) (new : Nfa),
        build element model nfa = (outcome, new) → new.IsConfined fragment.start ∧
          ∀ limits : Limits, new.determinize fragment limits = nfa.determinize fragment limits := by
  refine ⟨fun nfa fragments h fragment hmem => ?_,
    fun nfa fragment hconfined element model outcome new hbuild => ?_⟩
  · exact h.isStocked.isClosed.isConfined (h.isStocked.holds fragment hmem).1
  · have hgrown := (leaves_build element model nfa).grown
    rw [hbuild] at hgrown
    exact ⟨hgrown.isConfined hconfined, hgrown.determinize_eq hconfined⟩

/-- A loop beside which a sequence was begun; the states of its first token stay behind the
interleave that ended it. -/
theorem determinize_build_refused :
    let nfa : Nfa := ⟨#[⟨[("a", 1)], []⟩, ⟨[], [0, 3]⟩, ⟨[], [3, 0]⟩, ⟨[], []⟩]⟩
    let new : Nfa := ⟨nfa.states ++ #[⟨[("b", 5)], []⟩, ⟨[], []⟩]⟩
    let loop : Fragment := ⟨2, 3⟩
    let dfa : Dfa := ⟨#[⟨[("a", 1)], true⟩, ⟨[("a", 1)], true⟩]⟩
    Assembled nfa [loop, ⟨0, 1⟩] ∧
      build "e" (.sequence [.token "b", .interleave [.token "c"]]) nfa
        = (.error (.nestedInterleave "e"), new) ∧
      nfa.determinize loop {} = .ok dfa ∧ new.determinize loop {} = .ok dfa := by
  intro nfa new loop dfa
  have htoken : Assembled (({} : Nfa).token "a").2 [⟨0, 1⟩] := .token "a" .empty
  have hassembled : Assembled nfa [loop, ⟨0, 1⟩] := htoken.kleene (List.mem_singleton_self _)
  have hbuild : build "e" (.sequence [.token "b", .interleave [.token "c"]]) nfa
      = (.error (.nestedInterleave "e"), new) := rfl
  have hconfined := determinize_build.1 nfa _ hassembled loop List.mem_cons_self
  have hdfa : nfa.determinize loop {} = .ok dfa := by cbv
  have hsame := (determinize_build.2 nfa loop hconfined "e" _ _ new hbuild).2 {}
  exact ⟨hassembled, hbuild, hdfa, hsame.trans hdfa⟩

end Nfa

end RelaxSchema
