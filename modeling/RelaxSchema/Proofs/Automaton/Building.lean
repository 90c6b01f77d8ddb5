import RelaxSchema.Proofs.Automaton.Fragment

/-!
# The fragment of a content model

* `build_spec`: the fragment that `Nfa.build` adds for a content model reads exactly the words of
  the model;
* `build_refused`: a content model for which it adds none has an interleave;
* `leaves_build`: in either case the states that were there are as before.

The states of a fragment are added behind all states that exist, and their moves stay among them
(`Extends`), so fragments built one after the other are not connected until they are glued.
-/

namespace RelaxSchema.Nfa

open Computability

/-! ### Tables that grow -/

/-- States were added, whose moves stay among them; the others are as before. -/
structure Extends (old new : Nfa) : Prop where
  /-- No state went away. -/
  size_le : old.states.size ≤ new.states.size
  /-- The silent moves of the other states are as before. -/
  silentFrom_eq : ∀ s < old.states.size, new.silentFrom s = old.silentFrom s
  /-- The labelled moves of the other states are as before. -/
  movesFrom_eq : ∀ s < old.states.size, new.movesFrom s = old.movesFrom s
  /-- The moves of an added state lead to added states. -/
  added : ∀ s, old.states.size ≤ s → ∀ t ∈ new.targets s, old.states.size ≤ t ∧ t < new.states.size

namespace Extends

variable {old new : Nfa}

theorem refl (nfa : Nfa) : Extends nfa nfa where
  size_le := le_rfl
  silentFrom_eq _ _ := rfl
  movesFrom_eq _ _ := rfl
  added s hs t ht := by
    rw [targets, silentFrom_of_size_le hs, movesFrom_of_size_le hs] at ht
    simp at ht

theorem targets_eq (h : Extends old new) {s : Nat} (hs : s < old.states.size) :
    new.targets s = old.targets s := by
  rw [targets, targets, h.silentFrom_eq s hs, h.movesFrom_eq s hs]

theorem trans {newer : Nfa} (h : Extends old new) (h' : Extends new newer) : Extends old newer where
  size_le := h.size_le.trans h'.size_le
  silentFrom_eq s hs := by
    rw [h'.silentFrom_eq s (hs.trans_le h.size_le), h.silentFrom_eq s hs]
  movesFrom_eq s hs := by
    rw [h'.movesFrom_eq s (hs.trans_le h.size_le), h.movesFrom_eq s hs]
  added s hs t ht := by
    have hle := h.size_le
    have hle' := h'.size_le
    rcases lt_or_ge s new.states.size with hs' | hs'
    · rw [h'.targets_eq hs'] at ht
      obtain ⟨h1, h2⟩ := h.added s hs t ht
      omega
    · obtain ⟨h1, h2⟩ := h'.added s hs' t ht
      omega

theorem isClosed (h : Extends old new) (hclosed : old.IsClosed) : new.IsClosed := by
  intro s t ht
  rcases lt_or_ge s old.states.size with hs | hs
  · rw [h.targets_eq hs] at ht
    exact (hclosed s t ht).trans_le h.size_le
  · exact (h.added s hs t ht).2

/-- A path from an added state stays among the added states. -/
theorem le_of_path (h : Extends old new) {s t : Nat} {word : List String}
    (hpath : new.Path s word t) (hs : old.states.size ≤ s) : old.states.size ≤ t := by
  induction hpath with
  | done => exact hs
  | silent hstep _ ih => exact ih (h.added _ hs _ (mem_targets_of_silent hstep)).1
  | read hstep _ ih => exact ih (h.added _ hs _ (mem_targets_of_move hstep)).1

/-- A path from a state that led to no other states before is a path of the table before. -/
theorem path_of_path (h : Extends old new) {s t : Nat} {word : List String}
    (hconfined : old.IsConfined s) (hpath : new.Path s word t) : old.Path s word t := by
  induction hpath with
  | done => exact .done _
  | silent hstep _ ih =>
    rw [h.silentFrom_eq _ hconfined.lt_size] at hstep
    exact .silent hstep (ih (hconfined.of_path (.silent hstep (.done _))))
  | read hstep _ ih =>
    rw [h.movesFrom_eq _ hconfined.lt_size] at hstep
    exact .read hstep (ih (hconfined.of_path (.read hstep (.done _))))

theorem isWithin (h : Extends old new) : IsWithin old new := by
  refine ⟨fun s t ht => ?_, fun s move hmove => ?_⟩
  · rcases lt_or_ge s old.states.size with hs | hs
    · rwa [h.silentFrom_eq s hs]
    · rw [silentFrom_of_size_le hs] at ht
      simp at ht
  · rcases lt_or_ge s old.states.size with hs | hs
    · rwa [h.movesFrom_eq s hs]
    · rw [movesFrom_of_size_le hs] at hmove
      simp at hmove

theorem words_eq (h : Extends old new) (hclosed : old.IsClosed) {s : Nat} (hs : s < old.states.size)
    (t : Nat) : new.words s t = old.words s t :=
  Language.ext fun _ =>
    ⟨fun hp => h.path_of_path (hclosed.isConfined hs) hp, fun hp => Path.mono hp h.isWithin⟩

theorem words_eq_zero_of_lt (h : Extends old new) (hclosed : old.IsClosed) {s t : Nat}
    (hs : s < old.states.size) (ht : old.states.size ≤ t) : new.words s t = 0 :=
  Language.ext fun _ => ⟨fun hp =>
    have hconfined := hclosed.isConfined hs
    absurd (hconfined _ _ (h.path_of_path hconfined hp)) (not_lt.mpr ht), False.elim⟩

theorem words_eq_zero_of_le (h : Extends old new) {s t : Nat} (hs : old.states.size ≤ s)
    (ht : t < old.states.size) : new.words s t = 0 :=
  Language.ext fun _ => ⟨fun hp => absurd ht (not_lt.mpr (h.le_of_path hp hs)), False.elim⟩

/-- A silent move between added states may be added. -/
theorem addSilent (h : Extends old new) {source target : Nat} (hs : old.states.size ≤ source)
    (hs' : source < new.states.size) (ht : old.states.size ≤ target)
    (ht' : target < new.states.size) : Extends old (new.addSilent source target) where
  size_le := by rw [size_addSilent]; exact h.size_le
  silentFrom_eq s hold := by
    rw [silentFrom_addSilent hs', if_neg (by omega)]
    exact h.silentFrom_eq s hold
  movesFrom_eq s hold := by rw [movesFrom_addSilent]; exact h.movesFrom_eq s hold
  added s hadded t hmem := by
    rw [targets_addSilent hs'] at hmem
    rw [size_addSilent]
    split at hmem
    · rcases List.mem_cons.mp hmem with rfl | hmem
      · exact ⟨ht, ht'⟩
      · exact h.added s hadded t hmem
    · exact h.added s hadded t hmem

theorem fresh (h : Extends old new) : Extends old new.fresh.2 where
  size_le := by rw [size_fresh]; exact h.size_le.trans (Nat.le_add_right _ _)
  silentFrom_eq s hs := by rw [silentFrom_fresh]; exact h.silentFrom_eq s hs
  movesFrom_eq s hs := by rw [movesFrom_fresh]; exact h.movesFrom_eq s hs
  added s hs t ht := by
    rw [targets_fresh] at ht
    obtain ⟨h1, h2⟩ := h.added s hs t ht
    rw [size_fresh]
    omega

theorem epsilon (h : Extends old new) : Extends old new.epsilon.2 where
  size_le := by rw [size_epsilon]; exact h.size_le.trans (Nat.le_add_right _ _)
  silentFrom_eq s hs := by rw [silentFrom_epsilon]; exact h.silentFrom_eq s hs
  movesFrom_eq s hs := by rw [movesFrom_epsilon]; exact h.movesFrom_eq s hs
  added s hs t ht := by
    rw [targets, silentFrom_epsilon, movesFrom_epsilon] at ht
    obtain ⟨h1, h2⟩ := h.added s hs t ht
    rw [size_epsilon]
    omega

end Extends

/-! ### Building content models -/

/-- Both ends of a fragment are among the states that were added. -/
structure IsAdded (old new : Nfa) (fragment : Fragment) : Prop where
  /-- The entry was added. -/
  le_start : old.states.size ≤ fragment.start
  /-- The exit was added. -/
  le_finish : old.states.size ≤ fragment.finish
  /-- Both are states. -/
  holds : new.Holds fragment

/-- A fragment was added. -/
structure GrownBy (old new : Nfa) (fragment : Fragment) : Prop where
  /-- The other states are as before. -/
  grown : Extends old new
  /-- The fragment is new. -/
  added : IsAdded old new fragment

/-- A fragment with a given language was added. -/
structure Built (old new : Nfa) (fragment : Fragment) (language : Language String) : Prop
    extends GrownBy old new fragment where
  /-- It reads the language. -/
  reads_eq : new.reads fragment = language

/-- Fragments with given languages were added, which are not connected. -/
structure BuiltAll (old new : Nfa) (fragments : List Fragment)
    (languages : List (Language String)) : Prop where
  /-- The other states are as before. -/
  grown : Extends old new
  /-- The fragments are new. -/
  added : ∀ fragment ∈ fragments, IsAdded old new fragment
  /-- No path leads from one to another. -/
  apart : fragments.Pairwise new.IsApart
  /-- They read the languages. -/
  map_reads : fragments.map new.reads = languages

section Building

variable {old middle new : Nfa}

theorem Holds.mono {fragment : Fragment} (h : old.Holds fragment)
    (hle : old.states.size ≤ new.states.size) : new.Holds fragment :=
  ⟨h.1.trans_le hle, h.2.trans_le hle⟩

/-- What was added stays when more is added. -/
theorem IsAdded.stays {fragment : Fragment} (h : IsAdded old middle fragment)
    (hgrown : Extends middle new) : IsAdded old new fragment :=
  ⟨h.le_start, h.le_finish, h.holds.mono hgrown.size_le⟩

/-- What was added last was added. -/
theorem IsAdded.behind {fragment : Fragment} (h : IsAdded middle new fragment)
    (hgrown : Extends old middle) : IsAdded old new fragment :=
  ⟨hgrown.size_le.trans h.le_start, hgrown.size_le.trans h.le_finish, h.holds⟩

theorem IsAdded.addSilent {fragment : Fragment} (h : IsAdded old new fragment)
    (source target : Nat) : IsAdded old (new.addSilent source target) fragment :=
  ⟨h.le_start, h.le_finish, h.holds.addSilent _ _⟩

theorem Extends.enclose {outer inner : Fragment} (h : Extends old new)
    (houter : IsAdded old new outer) (hinner : IsAdded old new inner) :
    Extends old (new.enclose outer inner) := by
  have hstart := h.addSilent houter.le_start houter.holds.1 hinner.le_start hinner.holds.1
  exact hstart.addSilent hinner.le_finish (hinner.holds.addSilent _ _).2 houter.le_finish
    (houter.holds.addSilent _ _).2

theorem isAdded_fresh (h : old.states.size ≤ new.states.size) :
    IsAdded old new.fresh.2 new.fresh.1 := by
  have hstart : new.fresh.1.start = new.states.size := rfl
  have hfinish : new.fresh.1.finish = new.states.size + 1 := rfl
  have hsize := size_fresh new
  refine ⟨?_, ?_, ?_, ?_⟩ <;> omega

theorem IsAdded.fresh {fragment : Fragment} (h : IsAdded old new fragment) :
    IsAdded old new.fresh.2 fragment := by
  obtain ⟨hstart, hfinish, hlt, hlt'⟩ := h
  have hsize := size_fresh new
  refine ⟨?_, ?_, ?_, ?_⟩ <;> omega

/-! ### The steps of building -/

/-- The outer fragment around an added one. -/
theorem GrownBy.enclose {inner : Fragment} (h : GrownBy old new inner) :
    GrownBy old (new.fresh.2.enclose new.fresh.1 inner) new.fresh.1 := by
  have houter := isAdded_fresh h.grown.size_le
  exact ⟨h.grown.fresh.enclose houter h.added.fresh, (houter.addSilent _ _).addSilent _ _⟩

/-- The fragment that was added may be bypassed. -/
theorem GrownBy.bypass {fragment : Fragment} (h : GrownBy old new fragment) :
    GrownBy old (new.addSilent fragment.start fragment.finish) fragment :=
  ⟨h.grown.addSilent h.added.le_start h.added.holds.1 h.added.le_finish h.added.holds.2,
    h.added.addSilent _ _⟩

theorem GrownBy.optional {inner : Fragment} (h : GrownBy old new inner) :
    GrownBy old (new.optional inner).2 (new.optional inner).1 :=
  h.enclose.bypass

theorem GrownBy.plus {inner : Fragment} (h : GrownBy old new inner) :
    GrownBy old (new.plus inner).2 (new.plus inner).1 := by
  obtain ⟨hgrown, hadded⟩ := h.enclose
  have hinner := (h.added.fresh.addSilent new.fresh.1.start inner.start).addSilent inner.finish
    new.fresh.1.finish
  exact ⟨hgrown.addSilent hinner.le_finish hinner.holds.2 hinner.le_start hinner.holds.1,
    hadded.addSilent _ _⟩

theorem GrownBy.kleene {inner : Fragment} (h : GrownBy old new inner) :
    GrownBy old (new.kleene inner).2 (new.kleene inner).1 :=
  h.plus.bypass

theorem Built.optional {inner : Fragment} {language : Language String} (hclosed : old.IsClosed)
    (h : Built old new inner language) :
    Built old (new.optional inner).2 (new.optional inner).1 (language + 1) where
  toGrownBy := h.toGrownBy.optional
  reads_eq := by rw [reads_optional (h.grown.isClosed hclosed) h.added.holds, h.reads_eq]

theorem Built.plus {inner : Fragment} {language : Language String} (hclosed : old.IsClosed)
    (h : Built old new inner language) :
    Built old (new.plus inner).2 (new.plus inner).1 (language * language∗) where
  toGrownBy := h.toGrownBy.plus
  reads_eq := by rw [reads_plus (h.grown.isClosed hclosed) h.added.holds, h.reads_eq]

theorem Built.kleene {inner : Fragment} {language : Language String} (hclosed : old.IsClosed)
    (h : Built old new inner language) :
    Built old (new.kleene inner).2 (new.kleene inner).1 language∗ where
  toGrownBy := h.toGrownBy.kleene
  reads_eq := by rw [reads_kleene (h.grown.isClosed hclosed) h.added.holds, h.reads_eq]

theorem built_epsilon (nfa : Nfa) : Built nfa nfa.epsilon.2 nfa.epsilon.1 1 := by
  have hsize := size_epsilon nfa
  have hstart : nfa.epsilon.1.start = nfa.states.size := rfl
  have hfinish : nfa.epsilon.1.finish = nfa.states.size := rfl
  refine ⟨⟨(Extends.refl nfa).epsilon, ⟨?_, ?_, ?_, ?_⟩⟩, ?_⟩
  any_goals omega
  have hsink : nfa.epsilon.2.IsSink nfa.states.size := by
    rw [IsSink, targets, silentFrom_epsilon, movesFrom_epsilon, silentFrom_of_size_le le_rfl,
      movesFrom_of_size_le le_rfl]
    rfl
  exact hsink.words_self

/-- Gluing keeps the fragments among the added states. -/
theorem grown_foldl_glue : ∀ (rest : List Fragment) {new : Nfa} {first : Fragment},
    Extends old new → IsAdded old new first → (∀ fragment ∈ rest, IsAdded old new fragment) →
    GrownBy old (rest.foldl glue (first, new)).2 (rest.foldl glue (first, new)).1
  | [], _, _, hgrown, hfirst, _ => ⟨hgrown, hfirst⟩
  | next :: rest, new, first, hgrown, hfirst, hrest => by
    have hnext := hrest next (by simp)
    have hjoined : IsAdded old new ⟨first.start, next.finish⟩ :=
      ⟨hfirst.le_start, hnext.le_finish, hfirst.holds.1, hnext.holds.2⟩
    refine grown_foldl_glue rest ?_ (hjoined.addSilent _ _) fun fragment hmem =>
      (hrest fragment (List.mem_cons_of_mem _ hmem)).addSilent _ _
    exact hgrown.addSilent hfirst.le_finish hfirst.holds.2 hnext.le_start hnext.holds.1

theorem grown_append {fragments : List Fragment} (hgrown : Extends old new)
    (hadded : ∀ fragment ∈ fragments, IsAdded old new fragment) :
    GrownBy old (new.append fragments).2 (new.append fragments).1 := by
  cases fragments with
  | nil =>
    have hepsilon := built_epsilon new
    exact ⟨hgrown.trans hepsilon.grown, hepsilon.added.behind hgrown⟩
  | cons first rest =>
    obtain ⟨hfirst, hrest⟩ := List.forall_mem_cons.mp hadded
    exact grown_foldl_glue rest hgrown hfirst hrest

theorem BuiltAll.append {fragments : List Fragment} {languages : List (Language String)}
    (h : BuiltAll old new fragments languages) :
    Built old (new.append fragments).2 (new.append fragments).1 languages.prod := by
  refine ⟨grown_append h.grown h.added, ?_⟩
  cases fragments with
  | nil =>
    obtain rfl : [] = languages := h.map_reads
    exact (built_epsilon new).reads_eq
  | cons first rest =>
    obtain ⟨hfirst, hrest⟩ := List.forall_mem_cons.mp h.added
    rw [← h.map_reads, List.map_cons, List.prod_cons]
    exact reads_foldl_glue rest hfirst.holds
      (fun fragment hmem => (hrest fragment hmem).holds) h.apart

/-- Enclosing keeps the fragments among the added states. -/
theorem grown_foldl_enclose (outer : Fragment) : ∀ (fragments : List Fragment) {new : Nfa},
    Extends old new → IsAdded old new outer → (∀ fragment ∈ fragments, IsAdded old new fragment) →
    GrownBy old (fragments.foldl (fun nfa inner => nfa.enclose outer inner) new) outer
  | [], _, hgrown, houter, _ => ⟨hgrown, houter⟩
  | inner :: rest, new, hgrown, houter, hall =>
    grown_foldl_enclose outer rest (hgrown.enclose houter (hall inner (by simp)))
      ((houter.addSilent _ _).addSilent _ _) fun fragment hmem =>
        ((hall fragment (List.mem_cons_of_mem _ hmem)).addSilent _ _).addSilent _ _

theorem grown_merge {fragments : List Fragment} (hgrown : Extends old new)
    (hadded : ∀ fragment ∈ fragments, IsAdded old new fragment) :
    GrownBy old (new.merge fragments).2 (new.merge fragments).1 := by
  have houter := isAdded_fresh hgrown.size_le
  cases fragments with
  | nil => exact GrownBy.bypass ⟨hgrown.fresh, houter⟩
  | cons first rest =>
    exact grown_foldl_enclose new.fresh.1 (first :: rest) hgrown.fresh houter
      fun fragment hmem => (hadded fragment hmem).fresh

theorem BuiltAll.merge {fragments : List Fragment} {languages : List (Language String)}
    (hclosed : old.IsClosed) (h : BuiltAll old new fragments languages) :
    Built old (new.merge fragments).2 (new.merge fragments).1
      (if fragments.isEmpty then 1 else languages.sum) := by
  refine ⟨grown_merge h.grown h.added, ?_⟩
  rw [reads_merge (h.grown.isClosed hclosed)
    (fun fragment hmem => (h.added fragment hmem).holds) h.apart,
    h.map_reads]

/-- The moves of the fragment of a token. -/
theorem targets_token (nfa : Nfa) (name : String) (s : Nat) : (nfa.token name).2.targets s
    = if s = nfa.states.size then [nfa.states.size + 1] else nfa.targets s := by
  have hlt : nfa.states.size < nfa.fresh.2.states.size := by rw [size_fresh]; omega
  show (nfa.fresh.2.addMove nfa.states.size name (nfa.states.size + 1)).targets s = _
  rw [targets, silentFrom_addMove, silentFrom_fresh, movesFrom_addMove hlt, movesFrom_fresh]
  split
  · rename_i hs
    rw [hs, silentFrom_of_size_le le_rfl, movesFrom_of_size_le le_rfl]
    rfl
  · rfl

theorem grown_token (nfa : Nfa) (name : String) :
    GrownBy nfa (nfa.token name).2 (nfa.token name).1 := by
  have hsize : (nfa.token name).2.states.size = nfa.states.size + 2 :=
    (size_addMove _ _ _ _).trans (size_fresh nfa)
  have hlt : nfa.states.size < nfa.fresh.2.states.size := by rw [size_fresh]; omega
  refine ⟨⟨hsize ▸ Nat.le_add_right _ _, fun s hs => ?_, fun s hs => ?_, fun s hs t ht => ?_⟩,
    le_rfl, Nat.le_succ _, ?_⟩
  · exact (silentFrom_addMove _ _ _ _ _).trans (silentFrom_fresh nfa s)
  · exact (movesFrom_addMove hlt _ _ _).trans ((if_neg hs.ne).trans (movesFrom_fresh nfa s))
  · rw [targets_token] at ht
    split at ht
    · obtain rfl := List.mem_singleton.mp ht
      omega
    · rw [targets, silentFrom_of_size_le hs, movesFrom_of_size_le hs] at ht
      simp at ht
  · show nfa.states.size < (nfa.token name).2.states.size ∧
      nfa.states.size + 1 < (nfa.token name).2.states.size
    omega

theorem built_token (hclosed : new.IsClosed) (name : String) :
    Built new (new.token name).2 (new.token name).1 {[name]} := by
  refine ⟨grown_token new name, ?_⟩
  have hfresh := isFresh_fresh hclosed
  have hlt := (isAdded_fresh (le_refl new.states.size)).holds.1
  have hsink : (new.token name).2.IsSink new.fresh.1.finish := by
    rw [IsSink, targets_token]
    exact (if_neg hfresh.ne.symm).trans ((targets_fresh _ _).symm.trans hfresh.sink)
  obtain ⟨hsilent, hmoves⟩ := List.append_eq_nil_iff.mp hfresh.start_sink
  refine hsink.words_of_move hfresh.ne ?_ ?_
  · exact (silentFrom_addMove _ _ _ _ _).trans hsilent
  · refine (movesFrom_addMove hlt _ _ _).trans ((if_pos rfl).trans ?_)
    exact congrArg ((name, new.states.size + 1) :: ·) (List.map_eq_nil_iff.mp hmoves)

theorem continueWith_eq_ok {α β : Type} {built : Except Error α × Nfa} {step : Nfa → α → β × Nfa}
    {result : β} {nfa : Nfa} (h : continueWith built step = (.ok result, nfa)) :
    ∃ inner before, built = (.ok inner, before) ∧ step before inner = (result, nfa) := by
  obtain ⟨outcome, before⟩ := built
  cases outcome with
  | error => simp [continueWith] at h
  | ok inner =>
    refine ⟨inner, before, rfl, ?_⟩
    simp only [continueWith, Prod.mk.injEq, Except.ok.injEq] at h
    exact Prod.ext h.1 h.2

mutual

/-- **The fragment of a content model reads the words of the model.** -/
theorem build_spec (element : String) : ∀ (model : Model) {old new : Nfa} {fragment : Fragment},
    old.IsClosed → build element model old = (.ok fragment, new) →
    Built old new fragment model.language
  | .token name, old, new, fragment, hclosed, h => by
    obtain ⟨hfragment, hnew⟩ := Prod.mk.inj h
    obtain rfl := Except.ok.inj hfragment
    obtain rfl := hnew
    exact built_token hclosed name
  | .sequence blocks, old, new, fragment, hclosed, h => by
    obtain ⟨fragments, before, hblocks, hstep⟩ := continueWith_eq_ok h
    have hall := (buildAll_spec element blocks hclosed hblocks).append
    rw [hstep] at hall
    exact hall
  | .choice blocks, old, new, fragment, hclosed, h => by
    obtain ⟨fragments, before, hblocks, hstep⟩ := continueWith_eq_ok h
    have hspec := buildAll_spec element blocks hclosed hblocks
    have hall := hspec.merge hclosed
    -- The construction looks at the fragments where the model looks at the blocks.
    have hempty : fragments.isEmpty = blocks.isEmpty := by
      have hlength := congrArg List.length hspec.map_reads
      rw [List.length_map, Model.languages_eq_map, List.length_map] at hlength
      rw [Bool.eq_iff_iff, List.isEmpty_iff_length_eq_zero,
        List.isEmpty_iff_length_eq_zero, hlength]
    rw [hstep, hempty] at hall
    exact hall
  | .optional block, old, new, fragment, hclosed, h => by
    obtain ⟨inner, before, hblock, hstep⟩ := continueWith_eq_ok h
    have hbuilt := (build_spec element block hclosed hblock).optional hclosed
    rw [hstep] at hbuilt
    exact hbuilt
  | .kleene block, old, new, fragment, hclosed, h => by
    obtain ⟨inner, before, hblock, hstep⟩ := continueWith_eq_ok h
    have hbuilt := (build_spec element block hclosed hblock).kleene hclosed
    rw [hstep] at hbuilt
    exact hbuilt
  | .plus block, old, new, fragment, hclosed, h => by
    obtain ⟨inner, before, hblock, hstep⟩ := continueWith_eq_ok h
    have hbuilt := (build_spec element block hclosed hblock).plus hclosed
    rw [hstep] at hbuilt
    exact hbuilt
  | .interleave _, _, _, _, _, h => by simp [build] at h

theorem buildAll_spec (element : String) : ∀ (blocks : List Model) {old new : Nfa}
    {fragments : List Fragment}, old.IsClosed → buildAll element blocks old = (.ok fragments, new) →
    BuiltAll old new fragments (Model.languages blocks)
  | [], old, new, fragments, _, h => by
    obtain ⟨hfragments, hnew⟩ := Prod.mk.inj h
    obtain rfl := Except.ok.inj hfragments
    obtain rfl := hnew
    exact ⟨.refl old, by simp, .nil, rfl⟩
  | block :: rest, old, new, fragments, hclosed, h => by
    rw [buildAll] at h
    split at h
    · rename_i first middle hfirst
      obtain ⟨others, before, hothers, hstep⟩ := continueWith_eq_ok h
      obtain ⟨rfl, rfl⟩ := Prod.mk.inj hstep
      have hbuilt := build_spec element block hclosed hfirst
      have hmiddle := hbuilt.grown.isClosed hclosed
      have hrest := buildAll_spec element rest hmiddle hothers
      refine ⟨hbuilt.grown.trans hrest.grown, ?_, ?_, ?_⟩
      · exact List.forall_mem_cons.mpr ⟨hbuilt.added.stays hrest.grown, fun fragment hmem =>
          (hrest.added fragment hmem).behind hbuilt.grown⟩
      · refine List.pairwise_cons.mpr ⟨fun fragment hmem => ⟨?_, ?_⟩, hrest.apart⟩
        · exact hrest.grown.words_eq_zero_of_lt hmiddle hbuilt.added.holds.1
            (hrest.added fragment hmem).le_finish
        · exact hrest.grown.words_eq_zero_of_le (hrest.added fragment hmem).le_start
            hbuilt.added.holds.2
      · rw [List.map_cons, hrest.map_reads, Model.languages, reads,
          hrest.grown.words_eq hmiddle hbuilt.added.holds.1]
        congr 1
        exact hbuilt.reads_eq
    · simp at h

end

/-! ### Models that have no fragment -/

theorem continueWith_eq_error {α β : Type} {built : Except Error α × Nfa} {step : Nfa → α → β × Nfa}
    {error : Error} {nfa : Nfa} (h : continueWith built step = (.error error, nfa)) :
    built = (.error error, nfa) := by
  obtain ⟨outcome, before⟩ := built
  cases outcome with
  | ok => simp [continueWith] at h
  | error =>
    obtain ⟨herror, rfl⟩ := Prod.mk.inj h
    obtain rfl := Except.error.inj herror
    rfl

mutual

/-- What is built has no interleave. -/
theorem interleaves_eq_nil_of_build (element : String) : ∀ (model : Model) {old new : Nfa}
    {fragment : Fragment}, build element model old = (.ok fragment, new) → model.interleaves = []
  | .token _, _, _, _, _ => rfl
  | .sequence blocks, _, _, _, h => by
    obtain ⟨fragments, before, hblocks, -⟩ := continueWith_eq_ok h
    exact interleavesAll_eq_nil_of_buildAll element blocks hblocks
  | .choice blocks, _, _, _, h => by
    obtain ⟨fragments, before, hblocks, -⟩ := continueWith_eq_ok h
    exact interleavesAll_eq_nil_of_buildAll element blocks hblocks
  | .optional block, _, _, _, h => by
    obtain ⟨inner, before, hblock, -⟩ := continueWith_eq_ok h
    exact interleaves_eq_nil_of_build element block hblock
  | .kleene block, _, _, _, h => by
    obtain ⟨inner, before, hblock, -⟩ := continueWith_eq_ok h
    exact interleaves_eq_nil_of_build element block hblock
  | .plus block, _, _, _, h => by
    obtain ⟨inner, before, hblock, -⟩ := continueWith_eq_ok h
    exact interleaves_eq_nil_of_build element block hblock
  | .interleave _, _, _, _, h => by simp [build] at h

theorem interleavesAll_eq_nil_of_buildAll (element : String) :
    ∀ (blocks : List Model) {old new : Nfa}
    {fragments : List Fragment}, buildAll element blocks old = (.ok fragments, new) →
    Model.interleavesAll blocks = []
  | [], _, _, _, _ => rfl
  | block :: rest, _, _, _, h => by
    rw [buildAll] at h
    split at h
    · rename_i first middle hfirst
      obtain ⟨others, before, hothers, -⟩ := continueWith_eq_ok h
      rw [Model.interleavesAll, interleaves_eq_nil_of_build element block hfirst,
        interleavesAll_eq_nil_of_buildAll element rest hothers]
      rfl
    · simp at h

end

mutual

/-- **A content model without a fragment has an interleave**, and this is what is reported. -/
theorem build_refused (element : String) : ∀ (model : Model) {old new : Nfa} {error : Error},
    build element model old = (.error error, new) →
    model.interleaves ≠ [] ∧ error = .nestedInterleave element
  | .token _, _, _, _, h => by simp [build] at h
  | .sequence blocks, _, _, _, h => buildAll_refused element blocks (continueWith_eq_error h)
  | .choice blocks, _, _, _, h => buildAll_refused element blocks (continueWith_eq_error h)
  | .optional block, _, _, _, h => build_refused element block (continueWith_eq_error h)
  | .kleene block, _, _, _, h => build_refused element block (continueWith_eq_error h)
  | .plus block, _, _, _, h => build_refused element block (continueWith_eq_error h)
  | .interleave blocks, _, _, _, h => by
    obtain ⟨herror, -⟩ := Prod.mk.inj h
    exact ⟨List.cons_ne_nil _ _, (Except.error.inj herror).symm⟩

theorem buildAll_refused (element : String) :
    ∀ (blocks : List Model) {old new : Nfa} {error : Error},
    buildAll element blocks old = (.error error, new) →
    Model.interleavesAll blocks ≠ [] ∧ error = .nestedInterleave element
  | [], _, _, _, h => by simp [buildAll] at h
  | block :: rest, old, new, error, h => by
    rw [buildAll] at h
    split at h
    · obtain ⟨hrest, herror⟩ := buildAll_refused element rest (continueWith_eq_error h)
      exact ⟨fun hnil => hrest (List.append_eq_nil_iff.mp hnil).2, herror⟩
    · rename_i failure middle hfirst
      obtain ⟨herror, rfl⟩ := Prod.mk.inj h
      obtain rfl := Except.error.inj herror
      obtain ⟨hblock, herror⟩ := build_refused element block hfirst
      exact ⟨fun hnil => hblock (List.append_eq_nil_iff.mp hnil).1, herror⟩

end

/-! ### What building leaves behind -/

/-- Whether building succeeds or not, the states that were there are as before; what is returned was
added. -/
structure Leaves {α : Type} (old : Nfa) (added : Nfa → α → Prop)
    (built : Except Error α × Nfa) : Prop where
  /-- The other states are as before. -/
  grown : Extends old built.2
  /-- What is returned was added. -/
  added : ∀ result, built.1 = .ok result → added built.2 result

theorem Leaves.continueWith {α β : Type} {added : Nfa → α → Prop} {added' : Nfa → β → Prop}
    {built : Except Error α × Nfa} {step : Nfa → α → β × Nfa} (h : Leaves old added built)
    (hstep : ∀ {new inner}, Extends old new → added new inner →
      Extends old (step new inner).2 ∧ added' (step new inner).2 (step new inner).1) :
    Leaves old added' (Nfa.continueWith built step) := by
  obtain ⟨outcome, before⟩ := built
  cases outcome with
  | error error => exact ⟨h.grown, fun result hresult => by simp [Nfa.continueWith] at hresult⟩
  | ok inner =>
    obtain ⟨hgrown, hadded⟩ := hstep h.grown (h.added inner rfl)
    exact ⟨hgrown, fun result hresult => Except.ok.inj hresult ▸ hadded⟩

mutual

/-- **Building changes no state that is there**, whether there is a fragment in the end or not. -/
theorem leaves_build (element : String) : ∀ (model : Model) (old : Nfa),
    Leaves old (IsAdded old) (build element model old)
  | .token name, old =>
    have h := grown_token old name
    ⟨h.grown, fun _ hfragment => Except.ok.inj hfragment ▸ h.added⟩
  | .sequence blocks, old => (leaves_buildAll element blocks old).continueWith fun hgrown hadded =>
    have h := grown_append hgrown hadded
    ⟨h.grown, h.added⟩
  | .choice blocks, old => (leaves_buildAll element blocks old).continueWith fun hgrown hadded =>
    have h := grown_merge hgrown hadded
    ⟨h.grown, h.added⟩
  | .optional block, old => (leaves_build element block old).continueWith fun hgrown hadded =>
    have h := GrownBy.optional ⟨hgrown, hadded⟩
    ⟨h.grown, h.added⟩
  | .kleene block, old => (leaves_build element block old).continueWith fun hgrown hadded =>
    have h := GrownBy.kleene ⟨hgrown, hadded⟩
    ⟨h.grown, h.added⟩
  | .plus block, old => (leaves_build element block old).continueWith fun hgrown hadded =>
    have h := GrownBy.plus ⟨hgrown, hadded⟩
    ⟨h.grown, h.added⟩
  | .interleave _, old => ⟨.refl old, fun _ hfragment => by simp [build] at hfragment⟩

theorem leaves_buildAll (element : String) : ∀ (blocks : List Model) (old : Nfa),
    Leaves old (fun new fragments => ∀ fragment ∈ fragments, IsAdded old new fragment)
      (buildAll element blocks old)
  | [], old => ⟨.refl old, fun fragments hfragments => Except.ok.inj hfragments ▸ by simp⟩
  | block :: rest, old => by
    have hblock := leaves_build element block old
    rw [buildAll]
    split
    · rename_i first middle hfirst
      rw [hfirst] at hblock
      have hrest := leaves_buildAll element rest middle
      have hadded := hblock.added first rfl
      -- What was built first stays when the other blocks are built, or are not.
      have hboth : Leaves old (fun new others => Extends middle new ∧
          ∀ fragment ∈ others, IsAdded old new fragment) (buildAll element rest middle) :=
        ⟨hblock.grown.trans hrest.grown, fun others hothers => ⟨hrest.grown, fun fragment hmem =>
          (hrest.added others hothers fragment hmem).behind hblock.grown⟩⟩
      exact hboth.continueWith fun hgrown ⟨hmiddle, hothers⟩ =>
        ⟨hgrown, List.forall_mem_cons.mpr ⟨hadded.stays hmiddle, hothers⟩⟩
    · rename_i error middle hfirst
      rw [hfirst] at hblock
      exact ⟨hblock.grown, fun fragments hfragments => by simp at hfragments⟩

end

end Building

end RelaxSchema.Nfa
