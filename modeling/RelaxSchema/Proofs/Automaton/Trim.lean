import RelaxSchema.Proofs.Automaton.Merging

/-!
# No dead ends

A token that the automaton of a content model reads can always be completed to a word of the model.

* `Nfa.isTrim_build`: from every state that is added for a model a path leads to the exit of its
  fragment;
* `Model.exists_mem_languageFrom`: so no move of the deterministic automaton leads to a state from
  which nothing is read to the end.

This is more than the languages of the fragments say, which are about paths from the entry only.
Where fragments are put together their states stay, so it is enough that the exit of each part leads
on to the exit of the whole.
-/

namespace RelaxSchema

namespace Nfa

/-! ### Paths that exist -/

/-- Some path leads from one state to another. -/
def Leads (nfa : Nfa) (s t : Nat) : Prop := ∃ word, nfa.Path s word t

section Paths

variable {nfa nfa' : Nfa} {s t u : Nat}

theorem Leads.refl (nfa : Nfa) (s : Nat) : nfa.Leads s s := ⟨[], .done s⟩

theorem Leads.trans (h : nfa.Leads s t) (h' : nfa.Leads t u) : nfa.Leads s u := by
  obtain ⟨left, hleft⟩ := h
  obtain ⟨right, hright⟩ := h'
  exact ⟨left ++ right, hleft.append hright⟩

theorem Leads.mono (h : nfa.Leads s t) (hwithin : IsWithin nfa nfa') : nfa'.Leads s t := by
  obtain ⟨word, hpath⟩ := h
  exact ⟨word, hpath.mono hwithin⟩

theorem leads_addSilent {source : Nat} (h : source < nfa.states.size) (target : Nat) :
    (nfa.addSilent source target).Leads source target := by
  refine ⟨[], .silent ?_ (.done target)⟩
  rw [silentFrom_addSilent h, if_pos rfl]
  exact List.mem_cons_self

/-- The entry of an outer fragment leads to that of the inner one, and the exits the other way. -/
theorem leads_enclose {outer inner : Fragment} (houter : nfa.Holds outer)
    (hinner : nfa.Holds inner) :
    IsWithin nfa (nfa.enclose outer inner) ∧
      (nfa.enclose outer inner).Leads outer.start inner.start ∧
      (nfa.enclose outer inner).Leads inner.finish outer.finish := by
  have hfinish := (hinner.addSilent outer.start inner.start).2
  have hwithin := isWithin_addSilent hfinish outer.finish
  exact ⟨(isWithin_addSilent houter.1 inner.start).trans hwithin,
    (leads_addSilent houter.1 inner.start).mono hwithin, leads_addSilent hfinish outer.finish⟩

end Paths

/-! ### Fragments without dead ends -/

/-- Every added state leads to the exit of a fragment. -/
def IsTrim (old new : Nfa) (fragment : Fragment) : Prop :=
  ∀ s, old.states.size ≤ s → s < new.states.size → new.Leads s fragment.finish

/-- Every added state leads to the exit of some fragment, and so does the entry of each to its own
exit. -/
structure AreTrim (old new : Nfa) (fragments : List Fragment) : Prop where
  /-- Every added state leads to an exit. -/
  leads : ∀ s, old.states.size ≤ s → s < new.states.size →
    ∃ fragment ∈ fragments, new.Leads s fragment.finish
  /-- Every entry leads to the exit of its fragment. -/
  through : ∀ fragment ∈ fragments, new.Leads fragment.start fragment.finish

section Operators

variable {old new : Nfa}

theorem isTrim_token (nfa : Nfa) (name : String) :
    IsTrim nfa (nfa.token name).2 (nfa.token name).1 := by
  intro s hs hlt
  have hstart : nfa.fresh.1.start = nfa.states.size := rfl
  have hfinish : nfa.fresh.1.finish = nfa.states.size + 1 := rfl
  have hsource : nfa.fresh.1.start < nfa.fresh.2.states.size := by
    rw [hstart, size_fresh]
    omega
  replace hlt : s < (nfa.fresh.2.addMove nfa.fresh.1.start name nfa.fresh.1.finish).states.size :=
    hlt
  show (nfa.fresh.2.addMove nfa.fresh.1.start name nfa.fresh.1.finish).Leads s nfa.fresh.1.finish
  rw [size_addMove, size_fresh] at hlt
  obtain rfl | rfl : s = nfa.fresh.1.start ∨ s = nfa.fresh.1.finish := by omega
  · refine ⟨[name], .read ?_ (.done _)⟩
    rw [movesFrom_addMove hsource, if_pos rfl]
    exact List.mem_cons_self
  · exact .refl _ _

/-- **An outer fragment around an inner one**: its states lead to its exit, whatever moves are
added. -/
theorem IsTrim.enclose {inner : Fragment} (h : IsTrim old new inner)
    (hadded : IsAdded old new inner) {nfa : Nfa}
    (hwithin : IsWithin (new.fresh.2.enclose new.fresh.1 inner) nfa)
    (hsize : nfa.states.size = new.states.size + 2) : IsTrim old nfa new.fresh.1 := by
  have houter := (isAdded_fresh (le_refl new.states.size)).holds
  obtain ⟨hwithin', hstart, hfinish⟩ := leads_enclose houter hadded.fresh.holds
  have hall := ((isWithin_fresh new).trans hwithin').trans hwithin
  have hinner : ∀ s, old.states.size ≤ s → s < new.states.size → nfa.Leads s new.fresh.1.finish :=
    fun s hs hlt => ((h s hs hlt).mono hall).trans (hfinish.mono hwithin)
  intro s hs hlt
  have hs' : s < new.states.size ∨ s = new.fresh.1.start ∨ s = new.fresh.1.finish := by
    have hfirst : new.fresh.1.start = new.states.size := rfl
    have hlast : new.fresh.1.finish = new.states.size + 1 := rfl
    omega
  -- A state of the inner fragment, the new entry or the new exit.
  obtain hbefore | rfl | rfl := hs'
  · exact hinner s hs hbefore
  · exact (hstart.mono hwithin).trans (hinner _ hadded.le_start hadded.holds.1)
  · exact .refl _ _

theorem IsTrim.optional {inner : Fragment} (h : IsTrim old new inner)
    (hadded : IsAdded old new inner) :
    IsTrim old (new.optional inner).2 (new.optional inner).1 := by
  have houter := ((isAdded_fresh (le_refl new.states.size)).holds).enclose new.fresh.1 inner
  exact h.enclose hadded (isWithin_addSilent houter.1 new.fresh.1.finish) (size_optional _ _)

theorem IsTrim.plus {inner : Fragment} (h : IsTrim old new inner) (hadded : IsAdded old new inner) :
    IsTrim old (new.plus inner).2 (new.plus inner).1 := by
  have hinner := hadded.fresh.holds.enclose new.fresh.1 inner
  exact h.enclose hadded (isWithin_addSilent hinner.2 inner.start) (size_plus _ _)

theorem IsTrim.kleene {inner : Fragment} (h : IsTrim old new inner)
    (hadded : IsAdded old new inner) : IsTrim old (new.kleene inner).2 (new.kleene inner).1 := by
  have hinner := hadded.fresh.holds.enclose new.fresh.1 inner
  have houter := (((isAdded_fresh (le_refl new.states.size)).holds).enclose new.fresh.1
    inner).addSilent inner.finish inner.start
  exact h.enclose hadded ((isWithin_addSilent hinner.2 inner.start).trans
    (isWithin_addSilent houter.1 new.fresh.1.finish)) (size_kleene _ _)

/-- Each exit leads on through the fragments that are glued behind it. -/
theorem leads_foldl_glue : ∀ (rest : List Fragment) {nfa : Nfa} {first : Fragment},
    nfa.Holds first →
    (∀ fragment ∈ rest, nfa.Holds fragment ∧ nfa.Leads fragment.start fragment.finish) →
    IsWithin nfa (rest.foldl glue (first, nfa)).2 ∧
      ∀ fragment ∈ first :: rest, (rest.foldl glue (first, nfa)).2.Leads fragment.finish
        (rest.foldl glue (first, nfa)).1.finish
  | [], nfa, first, _, _ => ⟨.refl nfa, List.forall_mem_singleton.mpr (.refl _ _)⟩
  | next :: rest, nfa, first, hfirst, hrest => by
    obtain ⟨⟨hnext, hthrough⟩, hothers⟩ := List.forall_mem_cons.mp hrest
    have hwithin := isWithin_addSilent hfirst.2 next.start
    have hmove := leads_addSilent hfirst.2 next.start
    have hjoined : (nfa.addSilent first.finish next.start).Holds ⟨first.start, next.finish⟩ :=
      ⟨(hfirst.addSilent _ _).1, (hnext.addSilent _ _).2⟩
    obtain ⟨hall, hleads⟩ := leads_foldl_glue rest hjoined fun fragment hmem =>
      ⟨(hothers fragment hmem).1.addSilent _ _, (hothers fragment hmem).2.mono hwithin⟩
    obtain ⟨hlast, hleads⟩ := List.forall_mem_cons.mp hleads
    refine ⟨hwithin.trans hall,
      List.forall_mem_cons.mpr ⟨?_, List.forall_mem_cons.mpr ⟨hlast, hleads⟩⟩⟩
    exact (hmove.mono hall).trans ((hthrough.mono (hwithin.trans hall)).trans hlast)

theorem AreTrim.append {fragments : List Fragment} (h : AreTrim old new fragments)
    (hholds : ∀ fragment ∈ fragments, new.Holds fragment) :
    IsTrim old (new.append fragments).2 (new.append fragments).1 := by
  intro s hs hlt
  cases fragments with
  | nil =>
    replace hlt : s < new.epsilon.2.states.size := hlt
    rw [size_epsilon] at hlt
    obtain hbefore | rfl : s < new.states.size ∨ s = new.states.size := by omega
    · obtain ⟨fragment, hmem, -⟩ := h.leads s hs hbefore
      exact absurd hmem List.not_mem_nil
    · exact .refl _ _
  | cons first rest =>
    obtain ⟨hfirst, hothers⟩ := List.forall_mem_cons.mp hholds
    obtain ⟨hwithin, hleads⟩ := leads_foldl_glue rest hfirst fun fragment hmem =>
      ⟨hothers fragment hmem, h.through fragment (List.mem_cons_of_mem _ hmem)⟩
    obtain ⟨fragment, hmem, hfragment⟩ := h.leads s hs (size_foldl_glue rest (first, new) ▸ hlt)
    exact (hfragment.mono hwithin).trans (hleads fragment hmem)

/-- Each fragment is entered from the entry of the outer one and left to its exit. -/
theorem leads_foldl_enclose (outer : Fragment) : ∀ (fragments : List Fragment) {nfa : Nfa},
    nfa.Holds outer → (∀ fragment ∈ fragments, nfa.Holds fragment) →
    IsWithin nfa (fragments.foldl (fun nfa inner => nfa.enclose outer inner) nfa) ∧
      ∀ fragment ∈ fragments,
        (fragments.foldl (fun nfa inner => nfa.enclose outer inner) nfa).Leads outer.start
          fragment.start ∧
        (fragments.foldl (fun nfa inner => nfa.enclose outer inner) nfa).Leads
          fragment.finish outer.finish
  | [], nfa, _, _ => ⟨.refl nfa, fun _ hmem => absurd hmem List.not_mem_nil⟩
  | inner :: rest, nfa, houter, hall => by
    obtain ⟨hinner, hrest⟩ := List.forall_mem_cons.mp hall
    obtain ⟨hwithin, hstart, hfinish⟩ := leads_enclose houter hinner
    obtain ⟨hothers, hleads⟩ := leads_foldl_enclose outer rest (houter.enclose outer inner)
      fun fragment hmem => (hrest fragment hmem).enclose outer inner
    exact ⟨hwithin.trans hothers, List.forall_mem_cons.mpr
      ⟨⟨hstart.mono hothers, hfinish.mono hothers⟩, hleads⟩⟩

theorem AreTrim.merge {fragments : List Fragment} (h : AreTrim old new fragments)
    (hadded : ∀ fragment ∈ fragments, IsAdded old new fragment) :
    IsTrim old (new.merge fragments).2 (new.merge fragments).1 := by
  intro s hs hlt
  have houter := (isAdded_fresh (le_refl new.states.size)).holds
  have hfirst : new.fresh.1.start = new.states.size := rfl
  have hlast : new.fresh.1.finish = new.states.size + 1 := rfl
  rw [size_merge] at hlt
  have hs' : s < new.states.size ∨ s = new.fresh.1.start ∨ s = new.fresh.1.finish := by omega
  cases fragments with
  | nil =>
    obtain hbefore | rfl | rfl := hs'
    · obtain ⟨fragment, hmem, -⟩ := h.leads s hs hbefore
      exact absurd hmem List.not_mem_nil
    · exact leads_addSilent houter.1 new.fresh.1.finish
    · exact .refl _ _
  | cons first rest =>
    obtain ⟨hwithin, hleads⟩ := leads_foldl_enclose new.fresh.1 (first :: rest) houter
      fun fragment hmem => (hadded fragment hmem).fresh.holds
    replace hwithin := (isWithin_fresh new).trans hwithin
    obtain hbefore | rfl | rfl := hs'
    · obtain ⟨fragment, hmem, hfragment⟩ := h.leads s hs hbefore
      exact (hfragment.mono hwithin).trans (hleads fragment hmem).2
    · obtain ⟨hstart, hfinish⟩ := hleads first List.mem_cons_self
      have hthrough := (h.through first List.mem_cons_self).mono hwithin
      exact hstart.trans (hthrough.trans hfinish)
    · exact .refl _ _

end Operators

/-! ### Content models -/

mutual

/-- **Every state of the fragment of a content model leads to its exit.** -/
theorem isTrim_build (element : String) : ∀ (model : Model) {old new : Nfa} {fragment : Fragment},
    old.IsClosed → build element model old = (.ok fragment, new) → IsTrim old new fragment
  | .token name, old, new, fragment, _, h => by
    obtain ⟨hfragment, rfl⟩ := Prod.mk.inj h
    obtain rfl := Except.ok.inj hfragment
    exact isTrim_token old name
  | .sequence blocks, old, new, fragment, hclosed, h => by
    obtain ⟨fragments, before, hblocks, hstep⟩ := continueWith_eq_ok h
    have hspec := buildAll_spec element blocks hclosed hblocks
    have htrim := (areTrim_buildAll element blocks hclosed hblocks).append fun fragment hmem =>
      (hspec.added fragment hmem).holds
    rwa [hstep] at htrim
  | .choice blocks, old, new, fragment, hclosed, h => by
    obtain ⟨fragments, before, hblocks, hstep⟩ := continueWith_eq_ok h
    have hspec := buildAll_spec element blocks hclosed hblocks
    have htrim := (areTrim_buildAll element blocks hclosed hblocks).merge hspec.added
    rwa [hstep] at htrim
  | .optional block, old, new, fragment, hclosed, h => by
    obtain ⟨inner, before, hblock, hstep⟩ := continueWith_eq_ok h
    have hspec := build_spec element block hclosed hblock
    have htrim := (isTrim_build element block hclosed hblock).optional hspec.added
    rwa [hstep] at htrim
  | .kleene block, old, new, fragment, hclosed, h => by
    obtain ⟨inner, before, hblock, hstep⟩ := continueWith_eq_ok h
    have hspec := build_spec element block hclosed hblock
    have htrim := (isTrim_build element block hclosed hblock).kleene hspec.added
    rwa [hstep] at htrim
  | .plus block, old, new, fragment, hclosed, h => by
    obtain ⟨inner, before, hblock, hstep⟩ := continueWith_eq_ok h
    have hspec := build_spec element block hclosed hblock
    have htrim := (isTrim_build element block hclosed hblock).plus hspec.added
    rwa [hstep] at htrim
  | .interleave _, _, _, _, _, h => by simp [build] at h

theorem areTrim_buildAll (element : String) : ∀ (blocks : List Model) {old new : Nfa}
    {fragments : List Fragment}, old.IsClosed → buildAll element blocks old = (.ok fragments, new) →
    AreTrim old new fragments
  | [], old, new, fragments, _, h => by
    obtain ⟨hfragments, rfl⟩ := Prod.mk.inj h
    obtain rfl := Except.ok.inj hfragments
    exact ⟨fun s hs hlt => absurd hlt (not_lt.mpr hs), fun _ hmem => absurd hmem List.not_mem_nil⟩
  | block :: rest, old, new, fragments, hclosed, h => by
    rw [buildAll] at h
    split at h
    · rename_i first middle hfirst
      obtain ⟨others, before, hothers, hstep⟩ := continueWith_eq_ok h
      obtain ⟨rfl, rfl⟩ := Prod.mk.inj hstep
      have hspec := build_spec element block hclosed hfirst
      have hmiddle := hspec.grown.isClosed hclosed
      have hgrown := (buildAll_spec element rest hmiddle hothers).grown
      have hrest := areTrim_buildAll element rest hmiddle hothers
      -- What is built later does not take a path away.
      have hkept : ∀ s, old.states.size ≤ s → s < middle.states.size →
          before.Leads s first.finish := by
        intro s hs hlt
        exact (isTrim_build element block hclosed hfirst s hs hlt).mono hgrown.isWithin
      refine ⟨fun s hs hlt => ?_, List.forall_mem_cons.mpr
        ⟨hkept _ hspec.added.le_start hspec.added.holds.1, hrest.through⟩⟩
      rcases lt_or_ge s middle.states.size with hlt' | hge
      · exact ⟨first, List.mem_cons_self, hkept s hs hlt'⟩
      · obtain ⟨fragment, hmem, hleads⟩ := hrest.leads s hge hlt
        exact ⟨fragment, List.mem_cons_of_mem _ hmem, hleads⟩
    · simp at h

end

end Nfa

/-! ### Deterministic automata -/

/-- **What is read can be completed.** Each move of the automaton of a content model leads to a
state from which some list of tokens is read to the end. -/
theorem Model.exists_mem_languageFrom {model : Model} {element : String} {limits : Limits}
    {dfa : Dfa} (h : model.toDfa element limits = .ok dfa) {state next : Nat} {token : String}
    (hconsume : dfa.consume state token = some next) : ∃ word, word ∈ dfa.languageFrom next := by
  obtain ⟨fragment, nfa, hbuild, hdfa⟩ := toDfa_eq_ok h
  obtain ⟨table, hsound, hall, rfl⟩ := Nfa.determinize_spec hdfa
  have hspec := Nfa.build_spec element model Nfa.isClosed_empty hbuild
  cases hset : table.sets[state]? with
  | none =>
    rw [Dfa.consume, SubsetTable.states_toDfa, hset] at hconsume
    cases hrow : table.rows[state]? <;> simp [hrow] at hconsume
  | some set =>
    rcases SubsetTable.consume_toDfa hsound hall hset token with
      ⟨hmem, next', hnext, hset'⟩ | ⟨-, hnone⟩
    · obtain rfl : next = next' := Option.some.inj (hconsume.symm.trans hnext)
      obtain ⟨⟨name, target⟩, hmove, rfl⟩ := List.mem_map.mp hmem
      obtain ⟨s, -, hfrom⟩ := Nfa.mem_movesFromAll.mp hmove
      have htarget : target < nfa.states.size :=
        hspec.grown.isClosed Nfa.isClosed_empty s target (Nfa.mem_targets_of_move hfrom)
      obtain ⟨word, hpath⟩ :=
        Nfa.isTrim_build element model Nfa.isClosed_empty hbuild target (Nat.zero_le _) htarget
      -- The subset that is reached reads the same word to the end.
      have hfinish : fragment.finish ∈ nfa.after (nfa.successor set name) word := by
        refine Nfa.mem_after.mpr ⟨hspec.added.holds.2, target, ?_, hpath⟩
        exact List.mem_map.mpr ⟨(name, target), List.mem_filter.mpr ⟨hmove, by simp⟩, rfl⟩
      rcases SubsetTable.foldlM_consume_toDfa hsound hall fragment.finish word hset' with
        ⟨last, hrun, hlast⟩ | ⟨-, hempty⟩
      · exact ⟨word, last, hrun, (SubsetTable.isFinished_toDfa hall hlast).mpr hfinish⟩
      · rw [hempty] at hfinish
        exact absurd hfinish List.not_mem_nil
    · rw [hnone] at hconsume
      simp at hconsume

end RelaxSchema
