import RelaxSchema.Proofs.Automaton.Path

/-!
# The languages of fragments

What the glue between fragments does to the languages that they read, computed with
`words_addSilent`. The inner fragments must not be connected before (`IsApart`, `IsLoose`).

* `reads_foldl_glue`: fragments one after the other read the product of their languages;
* `reads_merge`: fragments side by side read the sum;
* `reads_optional`, `reads_plus`, `reads_kleene`: a bypass or a loop.
-/

namespace RelaxSchema.Nfa

open Computability

variable {nfa : Nfa}

/-! ### Numbers of states -/

@[simp] theorem size_enclose (nfa : Nfa) (outer inner : Fragment) :
    (nfa.enclose outer inner).states.size = nfa.states.size := by
  rw [enclose, size_addSilent, size_addSilent]

@[simp] theorem size_optional (nfa : Nfa) (inner : Fragment) :
    (nfa.optional inner).2.states.size = nfa.states.size + 2 := by
  simp [optional]

@[simp] theorem size_plus (nfa : Nfa) (inner : Fragment) :
    (nfa.plus inner).2.states.size = nfa.states.size + 2 := by
  simp [plus]

@[simp] theorem size_kleene (nfa : Nfa) (inner : Fragment) :
    (nfa.kleene inner).2.states.size = nfa.states.size + 2 := by
  simp [kleene]

theorem size_foldl_glue (rest : List Fragment) (built : Fragment × Nfa) :
    (rest.foldl glue built).2.states.size = built.2.states.size := by
  induction rest generalizing built with
  | nil => rfl
  | cons next rest ih => rw [List.foldl_cons, ih, glue, size_addSilent]

theorem size_foldl_enclose (outer : Fragment) (fragments : List Fragment) (nfa : Nfa) :
    (fragments.foldl (fun nfa inner => nfa.enclose outer inner) nfa).states.size =
      nfa.states.size := by
  induction fragments generalizing nfa with
  | nil => rfl
  | cons inner rest ih => rw [List.foldl_cons, ih, size_enclose]

theorem size_le_append (nfa : Nfa) (fragments : List Fragment) :
    nfa.states.size ≤ (nfa.append fragments).2.states.size := by
  cases fragments with
  | nil => exact (Nat.le_add_right _ 1).trans (size_epsilon nfa).ge
  | cons first rest => exact (size_foldl_glue rest (first, nfa)).ge

@[simp] theorem size_merge (nfa : Nfa) (fragments : List Fragment) :
    (nfa.merge fragments).2.states.size = nfa.states.size + 2 := by
  refine (size_foldl_enclose _ _ _).trans ?_
  split
  · exact (size_addSilent _ _ _).trans (size_fresh nfa)
  · exact size_fresh nfa

/-! ### Outer fragments -/

/-- Both ends of a fragment are states. -/
def Holds (nfa : Nfa) (fragment : Fragment) : Prop :=
  fragment.start < nfa.states.size ∧ fragment.finish < nfa.states.size

/-- The words that a fragment reads. -/
def reads (nfa : Nfa) (fragment : Fragment) : Language String :=
  nfa.words fragment.start fragment.finish

/-- The fragment has an entry that nothing enters and an exit that nothing leaves. -/
structure IsOuter (nfa : Nfa) (outer : Fragment) : Prop where
  /-- No move enters the entry. -/
  source : nfa.IsSource outer.start
  /-- No move leaves the exit. -/
  sink : nfa.IsSink outer.finish
  /-- The entry is not the exit. -/
  ne : outer.start ≠ outer.finish
  /-- Both are states. -/
  holds : nfa.Holds outer

/-- Both ends of the fragment are states other than those of an outer fragment. -/
structure IsInner (nfa : Nfa) (outer inner : Fragment) : Prop where
  /-- Both ends are states. -/
  holds : nfa.Holds inner
  /-- The entry is not the outer entry. -/
  start_ne_start : inner.start ≠ outer.start
  /-- The entry is not the outer exit. -/
  start_ne_finish : inner.start ≠ outer.finish
  /-- The exit is not the outer entry. -/
  finish_ne_start : inner.finish ≠ outer.start
  /-- The exit is not the outer exit. -/
  finish_ne_finish : inner.finish ≠ outer.finish

theorem Holds.addSilent {fragment : Fragment} (h : nfa.Holds fragment) (source target : Nat) :
    (nfa.addSilent source target).Holds fragment := by
  unfold Holds
  rw [size_addSilent]
  exact h

theorem Holds.enclose {fragment : Fragment} (h : nfa.Holds fragment) (outer inner : Fragment) :
    (nfa.enclose outer inner).Holds fragment :=
  (h.addSilent _ _).addSilent _ _

theorem IsOuter.addSilent {outer : Fragment} (h : nfa.IsOuter outer) {source target : Nat}
    (hsource : source < nfa.states.size) (hs : source ≠ outer.finish) (ht : target ≠ outer.start) :
    (nfa.addSilent source target).IsOuter outer where
  source := h.source.addSilent hsource ht
  sink := h.sink.addSilent hsource hs
  ne := h.ne
  holds := h.holds.addSilent source target

theorem IsOuter.enclose {outer inner : Fragment} (h : nfa.IsOuter outer)
    (hinner : nfa.IsInner outer inner) : (nfa.enclose outer inner).IsOuter outer := by
  have hstart := h.addSilent h.holds.1 h.ne hinner.start_ne_start
  exact hstart.addSilent (hinner.holds.addSilent _ _).2 hinner.finish_ne_finish h.ne.symm

/-- Enclosing a fragment leads from the outer entry to its start and from its exit to the outer
exit. -/
theorem words_enclose {outer inner : Fragment} (h : nfa.IsOuter outer)
    (hinner : nfa.IsInner outer inner) (s t : Nat) :
    (nfa.enclose outer inner).words s t
      = (if s = outer.start then nfa.words s t + nfa.words inner.start t else nfa.words s t)
        + (if t = outer.finish then
            if s = outer.start then nfa.words s inner.finish + nfa.words inner.start inner.finish
            else nfa.words s inner.finish
          else 0) := by
  have hstart := h.addSilent h.holds.1 h.ne hinner.start_ne_start
  have hfinish := (hinner.holds.addSilent outer.start inner.start).2
  rw [Nfa.enclose, hstart.sink.words_addSilent hfinish hinner.finish_ne_finish,
    h.source.words_addSilent h.holds.1 hinner.start_ne_start,
    h.source.words_addSilent h.holds.1 hinner.start_ne_start]
  split
  · rfl
  · rw [add_zero]

/-- The words of an outer fragment in which another one is enclosed, that was not connected to
it. -/
theorem reads_enclose {outer inner : Fragment} (h : nfa.IsOuter outer)
    (hinner : nfa.IsInner outer inner) (hto : nfa.words outer.start inner.finish = 0)
    (hfrom : nfa.words inner.start outer.finish = 0) :
    (nfa.enclose outer inner).reads outer = nfa.reads outer + nfa.reads inner := by
  rw [reads, words_enclose h hinner, if_pos rfl, if_pos rfl, if_pos rfl, hto, hfrom, add_zero,
    zero_add, reads, reads]

/-- Other paths that do not use the outer fragment are as before. -/
theorem words_enclose_of_ne {outer inner : Fragment} (h : nfa.IsOuter outer)
    (hinner : nfa.IsInner outer inner) {s t : Nat} (hs : s ≠ outer.start) (ht : t ≠ outer.finish) :
    (nfa.enclose outer inner).words s t = nfa.words s t := by
  rw [words_enclose h hinner, if_neg hs, if_neg ht, add_zero]

/-- A bypass around an outer fragment. -/
theorem reads_bypass {outer : Fragment} (h : nfa.IsOuter outer) :
    (nfa.addSilent outer.start outer.finish).reads outer = nfa.reads outer + 1 := by
  rw [reads, h.source.words_addSilent h.holds.1 h.ne.symm, if_pos rfl, h.sink.words_self, reads]

/-! ### Fresh outer fragments -/

/-- Every move leads to a state of the table. -/
def IsClosed (nfa : Nfa) : Prop := ∀ s, ∀ t ∈ nfa.targets s, t < nfa.states.size

/-- Only states have moves. -/
theorem isClosed_of_forall_lt
    (h : ∀ s < nfa.states.size, ∀ t ∈ nfa.targets s, t < nfa.states.size) : nfa.IsClosed := by
  intro s t ht
  by_cases hs : s < nfa.states.size
  · exact h s hs t ht
  · rw [targets, silentFrom_of_size_le (not_lt.mp hs), movesFrom_of_size_le (not_lt.mp hs)] at ht
    simp at ht

/-- No path from the state leaves the table. -/
def IsConfined (nfa : Nfa) (state : Nat) : Prop :=
  ∀ word t, nfa.Path state word t → t < nfa.states.size

theorem IsConfined.lt_size {state : Nat} (h : nfa.IsConfined state) : state < nfa.states.size :=
  h [] state (.done state)

theorem IsConfined.of_path {s t : Nat} {word : List String} (h : nfa.IsConfined s)
    (hpath : nfa.Path s word t) : nfa.IsConfined t :=
  fun rest u hrest => h (word ++ rest) u (hpath.append hrest)

theorem IsClosed.isConfined (hclosed : nfa.IsClosed) {state : Nat}
    (hstate : state < nfa.states.size) : nfa.IsConfined state := by
  intro word t hpath
  induction hpath with
  | done => exact hstate
  | silent hstep _ ih => exact ih (hclosed _ _ (mem_targets_of_silent hstep))
  | read hstep _ ih => exact ih (hclosed _ _ (mem_targets_of_move hstep))

/-- The fragment that was added last is not connected to anything. -/
structure IsFresh (nfa : Nfa) (outer : Fragment) : Prop extends nfa.IsOuter outer where
  /-- No move enters the exit. -/
  finish_source : nfa.IsSource outer.finish
  /-- No move leaves the entry. -/
  start_sink : nfa.IsSink outer.start

theorem isFresh_fresh (hclosed : nfa.IsClosed) : nfa.fresh.2.IsFresh nfa.fresh.1 := by
  have hsource : ∀ state, nfa.states.size ≤ state → nfa.fresh.2.IsSource state := by
    intro state hstate s hmem
    rw [targets_fresh] at hmem
    exact absurd (hclosed s state hmem) (not_lt.mpr hstate)
  have hsink : ∀ state, nfa.states.size ≤ state → nfa.fresh.2.IsSink state := by
    intro state hstate
    rw [IsSink, targets_fresh, targets, silentFrom_of_size_le hstate, movesFrom_of_size_le hstate]
    rfl
  have hstart : nfa.fresh.1.start = nfa.states.size := rfl
  have hfinish : nfa.fresh.1.finish = nfa.states.size + 1 := rfl
  have hsize := size_fresh nfa
  refine ⟨⟨hsource _ ?_, hsink _ ?_, ?_, ?_, ?_⟩, hsource _ ?_, hsink _ ?_⟩ <;> omega

/-- A fragment of the table before the outer one was added. -/
theorem isInner_fresh {inner : Fragment} (h : nfa.Holds inner) :
    nfa.fresh.2.IsInner nfa.fresh.1 inner := by
  obtain ⟨hs, ht⟩ := h
  have hstart : nfa.fresh.1.start = nfa.states.size := rfl
  have hfinish : nfa.fresh.1.finish = nfa.states.size + 1 := rfl
  have hsize := size_fresh nfa
  refine ⟨⟨?_, ?_⟩, ?_, ?_, ?_, ?_⟩ <;> omega

theorem words_fresh (s t : Nat) : nfa.fresh.2.words s t = nfa.words s t := by
  refine Language.ext fun word => ⟨fun h => ?_, fun h => ?_⟩
  · exact Path.mono h ⟨fun s t ht => by rwa [silentFrom_fresh] at ht,
      fun s move hmove => by rwa [movesFrom_fresh] at hmove⟩
  · exact Path.mono h (isWithin_fresh nfa)

theorem reads_fresh (fragment : Fragment) : nfa.fresh.2.reads fragment = nfa.reads fragment :=
  words_fresh _ _

namespace IsFresh

variable {outer : Fragment}

theorem reads_eq_zero (h : nfa.IsFresh outer) : nfa.reads outer = 0 :=
  h.start_sink.words_of_ne h.ne.symm

theorem words_to_eq_zero {inner : Fragment} (h : nfa.IsFresh outer)
    (hinner : nfa.IsInner outer inner) : nfa.words outer.start inner.finish = 0 :=
  h.start_sink.words_of_ne hinner.finish_ne_start

theorem words_from_eq_zero {inner : Fragment} (h : nfa.IsFresh outer)
    (hinner : nfa.IsInner outer inner) : nfa.words inner.start outer.finish = 0 :=
  h.finish_source.words_of_ne hinner.start_ne_finish

theorem reads_enclose {inner : Fragment} (h : nfa.IsFresh outer)
    (hinner : nfa.IsInner outer inner) :
    (nfa.enclose outer inner).reads outer = nfa.reads inner := by
  rw [Nfa.reads_enclose h.toIsOuter hinner (h.words_to_eq_zero hinner)
    (h.words_from_eq_zero hinner), h.reads_eq_zero, zero_add]

end IsFresh

/-! ### Bypasses and loops -/

section Closures

variable {inner : Fragment}

theorem reads_optional (hclosed : nfa.IsClosed) (h : nfa.Holds inner) :
    (nfa.optional inner).2.reads (nfa.optional inner).1 = nfa.reads inner + 1 := by
  have hfresh := isFresh_fresh hclosed
  have hinner := isInner_fresh h
  show ((nfa.fresh.2.enclose nfa.fresh.1 inner).addSilent nfa.fresh.1.start
    nfa.fresh.1.finish).reads nfa.fresh.1 = _
  rw [reads_bypass (hfresh.toIsOuter.enclose hinner), hfresh.reads_enclose hinner, reads_fresh]

/-- The outer fragment after the loop from the exit to the entry of the inner one is added. -/
theorem isOuter_plus (hclosed : nfa.IsClosed) (h : nfa.Holds inner) :
    (nfa.plus inner).2.IsOuter (nfa.plus inner).1 := by
  have hinner := isInner_fresh h
  have henclosed := (isFresh_fresh hclosed).toIsOuter.enclose hinner
  exact henclosed.addSilent (hinner.holds.enclose _ _).2 hinner.finish_ne_finish
    hinner.start_ne_start

theorem reads_plus (hclosed : nfa.IsClosed) (h : nfa.Holds inner) :
    (nfa.plus inner).2.reads (nfa.plus inner).1 = nfa.reads inner * (nfa.reads inner)∗ := by
  have hfresh := isFresh_fresh hclosed
  have hinner := isInner_fresh h
  show ((nfa.fresh.2.enclose nfa.fresh.1 inner).addSilent inner.finish inner.start).words
    nfa.fresh.1.start nfa.fresh.1.finish = _
  -- Whatever end of the loop a path starts from or stops at, what is read is a word of the inner
  -- one.
  have hthrough : (nfa.fresh.2.enclose nfa.fresh.1 inner).words nfa.fresh.1.start nfa.fresh.1.finish
      = nfa.reads inner := by
    rw [← reads_fresh]
    exact hfresh.reads_enclose hinner
  have henter : (nfa.fresh.2.enclose nfa.fresh.1 inner).words nfa.fresh.1.start inner.finish
      = nfa.reads inner := by
    rw [words_enclose hfresh.toIsOuter hinner, if_pos rfl, if_neg hinner.finish_ne_finish,
      hfresh.words_to_eq_zero hinner, zero_add, add_zero, words_fresh, reads]
  have hleave : (nfa.fresh.2.enclose nfa.fresh.1 inner).words inner.start nfa.fresh.1.finish
      = nfa.reads inner := by
    rw [words_enclose hfresh.toIsOuter hinner, if_neg hinner.start_ne_start, if_pos rfl,
      if_neg hinner.start_ne_start, hfresh.words_from_eq_zero hinner, zero_add, words_fresh, reads]
  have hinside : (nfa.fresh.2.enclose nfa.fresh.1 inner).words inner.start inner.finish
      = nfa.reads inner := by
    rw [words_enclose_of_ne hfresh.toIsOuter hinner hinner.start_ne_start hinner.finish_ne_finish,
      words_fresh, reads]
  rw [words_addSilent (hinner.holds.enclose _ _).2, detours, hthrough, henter, hleave, hinside]
  calc nfa.reads inner + nfa.reads inner * (nfa.reads inner)∗ * nfa.reads inner
      = nfa.reads inner * (1 + (nfa.reads inner)∗ * nfa.reads inner) := by
        rw [mul_add, mul_one, mul_assoc]
    _ = nfa.reads inner * (nfa.reads inner)∗ := by rw [one_add_kstar_mul]

theorem reads_kleene (hclosed : nfa.IsClosed) (h : nfa.Holds inner) :
    (nfa.kleene inner).2.reads (nfa.kleene inner).1 = (nfa.reads inner)∗ := by
  show ((nfa.plus inner).2.addSilent (nfa.plus inner).1.start (nfa.plus inner).1.finish).reads
    (nfa.plus inner).1 = _
  rw [reads_bypass (isOuter_plus hclosed h), reads_plus hclosed h, add_comm, one_add_mul_kstar]

end Closures

/-! ### Fragments one after the other -/

/-- No path leads from one fragment into another one. -/
def IsApart (nfa : Nfa) (left right : Fragment) : Prop :=
  nfa.words left.start right.finish = 0 ∧ nfa.words right.start left.finish = 0

/-- A silent move from a state that no path leads to is no use. -/
theorem words_addSilent_of_eq_zero {source : Nat} (hsource : source < nfa.states.size) {s : Nat}
    (h : nfa.words s source = 0) (target t : Nat) :
    (nfa.addSilent source target).words s t = nfa.words s t := by
  rw [words_addSilent hsource, detours, h, zero_mul, zero_mul, add_zero]

theorem reads_glue {first next : Fragment} (hfirst : nfa.Holds first)
    (hapart : nfa.IsApart first next) :
    (glue (first, nfa) next).2.reads (glue (first, nfa) next).1
      = nfa.reads first * nfa.reads next := by
  show (nfa.addSilent first.finish next.start).words first.start next.finish = _
  rw [words_addSilent hfirst.2, detours, hapart.1, hapart.2, kstar_zero, mul_one, zero_add, reads,
    reads]

/-- Fragments glued one after the other read the product of their languages. -/
theorem reads_foldl_glue : ∀ (rest : List Fragment) {nfa : Nfa} {first : Fragment},
    nfa.Holds first → (∀ fragment ∈ rest, nfa.Holds fragment) →
    (first :: rest).Pairwise nfa.IsApart →
    (rest.foldl glue (first, nfa)).2.reads (rest.foldl glue (first, nfa)).1
      = nfa.reads first * (rest.map nfa.reads).prod
  | [], nfa, first, _, _, _ => by simp
  | next :: rest, nfa, first, hfirst, hrest, hapart => by
    obtain ⟨hfirstApart, hapart⟩ := List.pairwise_cons.mp hapart
    obtain ⟨hnextApart, hrestApart⟩ := List.pairwise_cons.mp hapart
    have hnext := hrest next (by simp)
    have hfirstNext := hfirstApart next (by simp)
    -- The fragments that are still to come do not notice the new move.
    have hsame : ∀ fragment ∈ rest, ∀ t,
        (glue (first, nfa) next).2.words fragment.start t = nfa.words fragment.start t :=
      fun fragment hmem => words_addSilent_of_eq_zero hfirst.2
        (hfirstApart fragment (List.mem_cons_of_mem _ hmem)).2 _
    have hglued : ((glue (first, nfa) next).1 :: rest).Pairwise
        (glue (first, nfa) next).2.IsApart := by
      refine List.pairwise_cons.mpr ⟨fun fragment hmem => ⟨?_, ?_⟩, ?_⟩
      · show (nfa.addSilent first.finish next.start).words first.start fragment.finish = 0
        rw [words_addSilent hfirst.2, detours, (hfirstApart fragment (by simp [hmem])).1,
          (hnextApart fragment hmem).1, mul_zero, add_zero]
      · rw [hsame fragment hmem]
        exact (hnextApart fragment hmem).2
      · refine hrestApart.imp_of_mem fun hleft hright hpair => ⟨?_, ?_⟩
        · rw [hsame _ hleft]
          exact hpair.1
        · rw [hsame _ hright]
          exact hpair.2
    have hmap : rest.map (glue (first, nfa) next).2.reads = rest.map nfa.reads :=
      List.map_congr_left fun fragment hmem => hsame fragment hmem _
    rw [List.foldl_cons, reads_foldl_glue rest ?_ ?_ hglued, reads_glue hfirst hfirstNext, hmap,
      List.map_cons, List.prod_cons, mul_assoc]
    · have hheld : nfa.Holds ⟨first.start, next.finish⟩ := ⟨hfirst.1, hnext.2⟩
      exact hheld.addSilent _ _
    · exact fun fragment hmem => (hrest fragment (List.mem_cons_of_mem _ hmem)).addSilent _ _

/-! ### Fragments side by side -/

/-- The fragment is no part of the outer fragment, and no path connects the two. -/
structure IsLoose (nfa : Nfa) (outer inner : Fragment) : Prop extends nfa.IsInner outer inner where
  /-- The outer entry leads nowhere into it. -/
  to_eq_zero : nfa.words outer.start inner.finish = 0
  /-- It leads nowhere to the outer exit. -/
  from_eq_zero : nfa.words inner.start outer.finish = 0

theorem IsInner.enclose {outer inner : Fragment} (h : nfa.IsInner outer inner)
    (other : Fragment) : (nfa.enclose outer other).IsInner outer inner :=
  { h with holds := h.holds.enclose _ _ }

/-- Enclosing one fragment leaves another one loose. -/
theorem IsLoose.enclose {outer inner other : Fragment} (houter : nfa.IsOuter outer)
    (h : nfa.IsLoose outer inner) (hother : nfa.IsInner outer other)
    (hapart : nfa.IsApart other inner) : (nfa.enclose outer other).IsLoose outer inner where
  toIsInner := h.toIsInner.enclose other
  to_eq_zero := by
    rw [words_enclose houter hother, if_pos rfl, if_neg h.finish_ne_finish, h.to_eq_zero, hapart.1,
      add_zero, add_zero]
  from_eq_zero := by
    rw [words_enclose houter hother, if_neg h.start_ne_start, if_pos rfl, if_neg h.start_ne_start,
      h.from_eq_zero, hapart.2, add_zero]

/-- An outer fragment in which fragments are enclosed reads what one of them reads. -/
theorem reads_foldl_enclose (outer : Fragment) : ∀ (fragments : List Fragment) {nfa : Nfa},
    nfa.IsOuter outer → (∀ fragment ∈ fragments, nfa.IsLoose outer fragment) →
    fragments.Pairwise nfa.IsApart →
    (fragments.foldl (fun nfa inner => nfa.enclose outer inner) nfa).reads outer
      = nfa.reads outer + (fragments.map nfa.reads).sum
  | [], nfa, _, _, _ => by simp
  | inner :: rest, nfa, houter, hloose, hapart => by
    obtain ⟨hinnerApart, hrestApart⟩ := List.pairwise_cons.mp hapart
    have hinner := hloose inner (by simp)
    have hsame : ∀ left ∈ rest, ∀ right ∈ rest,
        (nfa.enclose outer inner).words left.start right.finish
          = nfa.words left.start right.finish := fun left hleft right hright =>
      words_enclose_of_ne houter hinner.toIsInner
        (hloose left (List.mem_cons_of_mem _ hleft)).start_ne_start
        (hloose right (List.mem_cons_of_mem _ hright)).finish_ne_finish
    have hmap : rest.map (nfa.enclose outer inner).reads = rest.map nfa.reads :=
      List.map_congr_left fun fragment hmem => hsame _ hmem _ hmem
    rw [List.foldl_cons, reads_foldl_enclose outer rest (houter.enclose hinner.toIsInner) ?_ ?_,
      reads_enclose houter hinner.toIsInner hinner.to_eq_zero hinner.from_eq_zero, hmap,
      List.map_cons, List.sum_cons, add_assoc]
    · exact fun fragment hmem => (hloose fragment (List.mem_cons_of_mem _ hmem)).enclose houter
        hinner.toIsInner (hinnerApart fragment hmem)
    · refine hrestApart.imp_of_mem fun hleft hright hpair => ⟨?_, ?_⟩
      · rw [hsame _ hleft _ hright]
        exact hpair.1
      · rw [hsame _ hright _ hleft]
        exact hpair.2

theorem IsFresh.isLoose {outer inner : Fragment} (h : nfa.IsFresh outer)
    (hinner : nfa.IsInner outer inner) : nfa.IsLoose outer inner where
  toIsInner := hinner
  to_eq_zero := h.words_to_eq_zero hinner
  from_eq_zero := h.words_from_eq_zero hinner

/-- The words of a merge: nothing is read, if there is no fragment. -/
theorem reads_merge (hclosed : nfa.IsClosed) {fragments : List Fragment}
    (hheld : ∀ fragment ∈ fragments, nfa.Holds fragment) (hapart : fragments.Pairwise nfa.IsApart) :
    (nfa.merge fragments).2.reads (nfa.merge fragments).1
      = if fragments.isEmpty then 1 else (fragments.map nfa.reads).sum := by
  have hfresh := isFresh_fresh hclosed
  cases fragments with
  | nil =>
    show (nfa.fresh.2.addSilent nfa.fresh.1.start nfa.fresh.1.finish).reads nfa.fresh.1 = 1
    rw [reads_bypass hfresh.toIsOuter, hfresh.reads_eq_zero, zero_add]
  | cons first rest =>
    show ((first :: rest).foldl (fun nfa' inner => nfa'.enclose nfa.fresh.1 inner)
      nfa.fresh.2).reads nfa.fresh.1 = ((first :: rest).map nfa.reads).sum
    rw [reads_foldl_enclose nfa.fresh.1 _ hfresh.toIsOuter, hfresh.reads_eq_zero, zero_add]
    · congr 1
      exact List.map_congr_left fun fragment _ => reads_fresh fragment
    · exact fun fragment hmem => hfresh.isLoose (isInner_fresh (hheld fragment hmem))
    · refine hapart.imp fun hpair => ?_
      unfold IsApart
      rw [words_fresh, words_fresh]
      exact hpair

end RelaxSchema.Nfa
