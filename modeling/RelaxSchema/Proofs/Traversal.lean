import Mathlib

/-!
# Computations that may fail

Characterisations of a computation that ends with a value: of its steps one after the other, and of
a traversal of a list, which gives each entry its own value, or fails at the first entry that has
none (`mapM_eq_error_iff`). A fold whose steps may change places ends alike in every order
(`exists_foldlM_of_perm`).
-/

namespace RelaxSchema

open List

variable {ε α β γ δ : Type}

theorem bind_eq_ok_iff {first : Except ε α} {next : α → Except ε β} {value : β} :
    first >>= next = .ok value ↔ ∃ middle, first = .ok middle ∧ next middle = .ok value := by
  cases first <;> simp [bind, Except.bind]

theorem bind_eq_error_iff {first : Except ε α} {next : α → Except ε β} {error : ε} :
    first >>= next = .error error ↔
      first = .error error ∨ ∃ middle, first = .ok middle ∧ next middle = .error error := by
  cases first <;> simp [bind, Except.bind]

theorem map_eq_ok_iff {first : Except ε α} {f : α → β} {value : β} :
    f <$> first = .ok value ↔ ∃ middle, first = .ok middle ∧ f middle = value := by
  cases first <;> simp [Functor.map, Except.map]

theorem map_eq_error_iff {first : Except ε α} {f : α → β} {error : ε} :
    f <$> first = .error error ↔ first = .error error := by
  cases first <;> simp [Functor.map, Except.map]

theorem pure_eq_ok_iff {first value : α} : (pure first : Except ε α) = .ok value ↔ first = value :=
  Except.ok.injEq first value ▸ Iff.rfl

theorem mapM_eq_ok_iff {f : α → Except ε β} {entries : List α} {values : List β} :
    entries.mapM f = .ok values ↔
      Forall₂ (fun entry value => f entry = .ok value) entries values := by
  induction entries generalizing values with
  | nil => rw [mapM_nil, pure_eq_ok_iff, forall₂_nil_left_iff, eq_comm]
  | cons entry rest ih =>
    rw [mapM_cons, bind_eq_ok_iff, forall₂_cons_left_iff]
    constructor
    · rintro ⟨value, hvalue, hrest⟩
      obtain ⟨others, hothers, hall⟩ := bind_eq_ok_iff.mp hrest
      exact ⟨value, others, hvalue, ih.mp hothers, (pure_eq_ok_iff.mp hall).symm⟩
    · rintro ⟨value, others, hvalue, hothers, rfl⟩
      exact ⟨value, hvalue, bind_eq_ok_iff.mpr ⟨others, ih.mpr hothers, rfl⟩⟩

theorem exists_mapM {f : α → Except ε β} {entries : List α}
    (h : ∀ entry ∈ entries, ∃ value, f entry = .ok value) :
    ∃ values, entries.mapM f = .ok values := by
  induction entries with
  | nil => exact ⟨[], rfl⟩
  | cons entry rest ih =>
    obtain ⟨value, hvalue⟩ := h entry mem_cons_self
    obtain ⟨values, hvalues⟩ := ih fun other hother => h other (mem_cons_of_mem _ hother)
    exact ⟨value :: values, mapM_eq_ok_iff.mpr (.cons hvalue (mapM_eq_ok_iff.mp hvalues))⟩

/-- A traversal fails at the first entry that has no value. -/
theorem mapM_eq_error_iff {f : α → Except ε β} {entries : List α} {error : ε} :
    entries.mapM f = .error error ↔ ∃ before entry after, entries = before ++ entry :: after ∧
      (∀ other ∈ before, ∃ value, f other = .ok value) ∧ f entry = .error error := by
  induction entries with
  | nil => simp [pure, Except.pure]
  | cons first rest ih =>
    rw [mapM_cons, bind_eq_error_iff]
    constructor
    · rintro (hfirst | ⟨value, hvalue, hrest⟩)
      · exact ⟨[], first, rest, rfl, by simp, hfirst⟩
      · rcases bind_eq_error_iff.mp hrest with hrest | ⟨_, -, hrest⟩
        · obtain ⟨before, entry, after, rfl, hbefore, hentry⟩ := ih.mp hrest
          exact ⟨first :: before, entry, after, rfl,
            forall_mem_cons.mpr ⟨⟨value, hvalue⟩, hbefore⟩, hentry⟩
        · simp [pure, Except.pure] at hrest
    · rintro ⟨before, entry, after, hsplit, hbefore, hentry⟩
      cases before with
      | nil =>
        obtain ⟨rfl, -⟩ := cons.inj hsplit
        exact Or.inl hentry
      | cons other before =>
        obtain ⟨rfl, rfl⟩ := cons.inj hsplit
        obtain ⟨⟨value, hvalue⟩, hbefore⟩ := forall_mem_cons.mp hbefore
        have hrest := ih.mpr ⟨before, entry, after, rfl, hbefore, hentry⟩
        exact Or.inr ⟨value, hvalue, bind_eq_error_iff.mpr (Or.inl hrest)⟩

/-- The values of a traversal in another order are in that order. -/
theorem exists_mapM_of_perm {f : α → Except ε β} {entries entries' : List α} {values : List β}
    (hperm : entries' ~ entries) (h : entries.mapM f = .ok values) :
    ∃ values', entries'.mapM f = .ok values' ∧ values' ~ values := by
  obtain ⟨values', hvalues', hsame⟩ := perm_comp_forall₂ hperm (mapM_eq_ok_iff.mp h)
  exact ⟨values', mapM_eq_ok_iff.mpr hvalues', hsame⟩

/-- What each step of a fold keeps holds at its end. -/
theorem foldlM_induction {f : β → α → Except ε β} {P : β → Prop} {entries : List α}
    (hstep : ∀ state, ∀ entry ∈ entries, ∀ next, P state → f state entry = .ok next → P next)
    {state last : β} (hstart : P state) (h : entries.foldlM f state = .ok last) : P last := by
  induction entries generalizing state with
  | nil =>
    obtain rfl := pure_eq_ok_iff.mp h
    exact hstart
  | cons entry rest ih =>
    rw [foldlM_cons] at h
    obtain ⟨next, hnext, hrest⟩ := bind_eq_ok_iff.mp h
    exact ih (fun state entry hentry => hstep state entry (mem_cons_of_mem _ hentry))
      (hstep state entry mem_cons_self next hstart hnext) hrest

/-- Two folds over the same entries end in related states if their steps keep the states related. -/
theorem foldlM_relation {f : β → α → Except ε β} {g : γ → α → Except ε γ} {R : β → γ → Prop}
    {entries : List α}
    (hstep : ∀ state state', ∀ entry ∈ entries, ∀ next next', R state state' →
      f state entry = .ok next → g state' entry = .ok next' → R next next')
    {state last : β} {state' last' : γ} (hstart : R state state')
    (h : entries.foldlM f state = .ok last) (h' : entries.foldlM g state' = .ok last') :
    R last last' := by
  induction entries generalizing state state' with
  | nil =>
    obtain rfl := pure_eq_ok_iff.mp h
    obtain rfl := pure_eq_ok_iff.mp h'
    exact hstart
  | cons entry rest ih =>
    rw [foldlM_cons] at h h'
    obtain ⟨next, hnext, hrest⟩ := bind_eq_ok_iff.mp h
    obtain ⟨next', hnext', hrest'⟩ := bind_eq_ok_iff.mp h'
    exact ih (fun state state' entry hentry => hstep state state' entry (mem_cons_of_mem _ hentry))
      (hstep state state' entry mem_cons_self next next' hstart hnext hnext') hrest hrest'

/-! ### Folds in another order -/

section Order

variable {f : β → α → Except ε β} {view : β → γ} {D : α → α → Prop}

/-- A fold from a state that looks the same ends in one that looks the same. -/
theorem exists_foldlM_of_view
    (hstep : ∀ state state' entry next, view state' = view state → f state entry = .ok next →
      ∃ next', f state' entry = .ok next' ∧ view next' = view next)
    {entries : List α} {state state' last : β} (hview : view state' = view state)
    (h : entries.foldlM f state = .ok last) :
    ∃ last', entries.foldlM f state' = .ok last' ∧ view last' = view last := by
  induction entries generalizing state state' with
  | nil =>
    obtain rfl := pure_eq_ok_iff.mp h
    exact ⟨state', rfl, hview⟩
  | cons entry rest ih =>
    rw [foldlM_cons] at h
    obtain ⟨next, hnext, hrest⟩ := bind_eq_ok_iff.mp h
    obtain ⟨next', hnext', hviewNext⟩ := hstep _ _ _ _ hview hnext
    obtain ⟨last', hlast', hviewLast⟩ := ih hviewNext hrest
    exact ⟨last', (foldlM_cons ..).trans (bind_eq_ok_iff.mpr ⟨next', hnext', hlast'⟩), hviewLast⟩

/-- **The order of a fold does not matter** for what its states look like, if two steps that follow
each other may change places. -/
theorem exists_foldlM_of_perm
    (hstep : ∀ state state' entry next, view state' = view state → f state entry = .ok next →
      ∃ next', f state' entry = .ok next' ∧ view next' = view next)
    (hswap : ∀ state first second middle next, D first second → f state first = .ok middle →
      f middle second = .ok next → ∃ middle' next', f state second = .ok middle' ∧
        f middle' first = .ok next' ∧ view next' = view next)
    (hsymm : ∀ first second, D first second → D second first) {entries entries' : List α}
    (hperm : entries ~ entries') (hpairwise : entries.Pairwise D) {state last : β}
    (h : entries.foldlM f state = .ok last) :
    ∃ last', entries'.foldlM f state = .ok last' ∧ view last' = view last := by
  induction hperm generalizing state last with
  | nil => exact ⟨last, h, rfl⟩
  | cons entry _ ih =>
    rw [foldlM_cons] at h
    obtain ⟨next, hnext, hrest⟩ := bind_eq_ok_iff.mp h
    obtain ⟨last', hlast', hview⟩ := ih (pairwise_cons.mp hpairwise).2 hrest
    exact ⟨last', (foldlM_cons ..).trans (bind_eq_ok_iff.mpr ⟨next, hnext, hlast'⟩), hview⟩
  | swap first second rest =>
    rw [foldlM_cons] at h
    obtain ⟨middle, hmiddle, h⟩ := bind_eq_ok_iff.mp h
    rw [foldlM_cons] at h
    obtain ⟨next, hnext, hrest⟩ := bind_eq_ok_iff.mp h
    have hapart : D second first := (pairwise_cons.mp hpairwise).1 first mem_cons_self
    obtain ⟨middle', next', hmiddle', hnext', hview⟩ := hswap _ _ _ _ _ hapart hmiddle hnext
    obtain ⟨last', hlast', hviewLast⟩ := exists_foldlM_of_view hstep hview hrest
    refine ⟨last', ?_, hviewLast⟩
    rw [foldlM_cons]
    refine bind_eq_ok_iff.mpr ⟨middle', hmiddle', ?_⟩
    rw [foldlM_cons]
    exact bind_eq_ok_iff.mpr ⟨next', hnext', hlast'⟩
  | trans hfirst _ ih ih' =>
    obtain ⟨middle, hmiddle, hview⟩ := ih hpairwise h
    obtain ⟨last', hlast', hview'⟩ :=
      ih' (hpairwise.perm hfirst fun hpair => hsymm _ _ hpair) hmiddle
    exact ⟨last', hlast', hview'.trans hview⟩

end Order

/-! ### Related lists -/

/-- Related lists split at the same place. -/
theorem forall₂_append_left {R : α → β → Prop} {before after : List α} {all : List β}
    (h : Forall₂ R (before ++ after) all) :
    ∃ befores afters, all = befores ++ afters ∧ Forall₂ R before befores ∧
      Forall₂ R after afters := by
  have hsplit := take_append_drop before.length all
  refine ⟨_, _, hsplit.symm, ?_, ?_⟩
  · have htake := forall₂_take before.length h
    rwa [take_left] at htake
  · have hdrop := forall₂_drop before.length h
    rwa [drop_left] at hdrop

/-- What two lists have in common with a third one relates them. -/
theorem forall₂_of_forall₂ {P : α → β → Prop} {Q : α → γ → Prop} {R : β → γ → Prop}
    {entries : List α} {values : List β} {others : List γ} (h : Forall₂ P entries values)
    (h' : Forall₂ Q entries others)
    (hrel : ∀ entry ∈ entries, ∀ value other, P entry value → Q entry other → R value other) :
    Forall₂ R values others := by
  induction h generalizing others with
  | nil =>
    obtain rfl := forall₂_nil_left_iff.mp h'
    exact .nil
  | @cons entry value rest values hfirst _ ih =>
    obtain ⟨other, others, hother, hothers, rfl⟩ := forall₂_cons_left_iff.mp h'
    exact .cons (hrel entry mem_cons_self value other hfirst hother)
      (ih hothers fun entry hentry => hrel entry (mem_cons_of_mem _ hentry))

section Side

variable {f : β → α → Except ε β} {g : δ → γ → Except ε δ} {R : α → γ → Prop} {S : β → δ → Prop}

/-- A traversal of a list is followed by that of a related one. -/
theorem exists_mapM_of_forall₂ {f : α → Except ε β} {g : γ → Except ε δ}
    (hstep : ∀ entry entry' value, R entry entry' → f entry = .ok value →
      ∃ value', g entry' = .ok value' ∧ S value value')
    {entries : List α} {entries' : List γ} (h : Forall₂ R entries entries') {values : List β}
    (hvalues : entries.mapM f = .ok values) :
    ∃ values', entries'.mapM g = .ok values' ∧ Forall₂ S values values' := by
  have hall := mapM_eq_ok_iff.mp hvalues
  suffices hboth : ∃ values',
    Forall₂ (fun entry' value' => g entry' = .ok value') entries' values' ∧
      Forall₂ S values values' by
    obtain ⟨values', hvalues', hrelated⟩ := hboth
    exact ⟨values', mapM_eq_ok_iff.mpr hvalues', hrelated⟩
  clear hvalues
  induction h generalizing values with
  | nil =>
    obtain rfl := forall₂_nil_left_iff.mp hall
    exact ⟨[], .nil, .nil⟩
  | cons hfirst _ ih =>
    obtain ⟨value, others, hvalue, hothers, rfl⟩ := forall₂_cons_left_iff.mp hall
    obtain ⟨value', hvalue', hrelated⟩ := hstep _ _ _ hfirst hvalue
    obtain ⟨others', hothers', hrelatedOthers⟩ := ih hothers
    exact ⟨value' :: others', .cons hvalue' hothers', .cons hrelated hrelatedOthers⟩

/-- A fold over a list is followed by that over a related one. -/
theorem exists_foldlM_of_forall₂
    (hstep : ∀ state state' entry entry' next, S state state' → R entry entry' →
      f state entry = .ok next → ∃ next', g state' entry' = .ok next' ∧ S next next')
    {entries : List α} {entries' : List γ} (h : Forall₂ R entries entries') {state last : β}
    {state' : δ} (hstart : S state state') (hlast : entries.foldlM f state = .ok last) :
    ∃ last', entries'.foldlM g state' = .ok last' ∧ S last last' := by
  induction h generalizing state state' with
  | nil =>
    obtain rfl := pure_eq_ok_iff.mp hlast
    exact ⟨state', rfl, hstart⟩
  | cons hfirst _ ih =>
    rw [foldlM_cons] at hlast
    obtain ⟨next, hnext, hrest⟩ := bind_eq_ok_iff.mp hlast
    obtain ⟨next', hnext', hrelated⟩ := hstep _ _ _ _ _ hstart hfirst hnext
    obtain ⟨last', hlast', hrelatedLast⟩ := ih hrelated hrest
    exact ⟨last', (foldlM_cons ..).trans (bind_eq_ok_iff.mpr ⟨next', hnext', hlast'⟩), hrelatedLast⟩

end Side

/-- Lists of one length keep their order, whatever follows. -/
theorem lex_append {R : α → α → Prop} {before after : List α}
    (hlength : before.length = after.length) (h : Lex R before after) (left right : List α) :
    Lex R (before ++ left) (after ++ right) := by
  induction h with
  | nil => simp at hlength
  | cons _ ih => exact .cons (ih (by simpa using hlength))
  | rel hlt => exact .rel hlt

theorem exists_right_of_forall₂ {R : α → β → Prop} {entries : List α} {values : List β}
    (h : Forall₂ R entries values) {entry : α} (hmem : entry ∈ entries) :
    ∃ value ∈ values, R entry value := by
  induction h with
  | nil => simp at hmem
  | @cons first value rest others hfirst _ ih =>
    rcases mem_cons.mp hmem with rfl | hmem
    · exact ⟨value, mem_cons_self, hfirst⟩
    · obtain ⟨other, hother, hrel⟩ := ih hmem
      exact ⟨other, mem_cons_of_mem _ hother, hrel⟩

/-- What stands at a position of related lists is related. -/
theorem rel_getElem?_of_forall₂ {R : α → β → Prop} {entries : List α} {values : List β}
    (h : Forall₂ R entries values) (position : Nat) :
    Option.Rel R entries[position]? values[position]? := by
  induction h generalizing position with
  | nil => exact .none
  | cons hfirst _ ih =>
    cases position with
    | zero => exact .some hfirst
    | succ position => exact ih position

/-- What is found in a list is related to what is found in the other one, if both are searched for
the same. -/
theorem exists_find?_of_forall₂ {R : α → β → Prop} {p : α → Bool} {q : β → Bool} {entries : List α}
    {values : List β}
    (h : Forall₂ (fun entry value => p entry = q value ∧ (p entry = true → R entry value))
      entries values)
    {entry : α} (hentry : entries.find? p = some entry) :
    ∃ value, values.find? q = some value ∧ R entry value := by
  induction h with
  | nil => cases hentry
  | @cons first value rest others hfirst _ ih =>
    obtain ⟨hsame, hrel⟩ := hfirst
    cases hfound : p first with
    | true =>
      rw [find?_cons_of_pos hfound] at hentry
      obtain rfl := Option.some.inj hentry
      exact ⟨value, find?_cons_of_pos (hsame.symm.trans hfound), hrel hfound⟩
    | false =>
      rw [find?_cons_of_neg (Bool.eq_false_iff.mp hfound)] at hentry
      obtain ⟨found, hfind, hrest⟩ := ih hentry
      exact ⟨found,
        (find?_cons_of_neg (Bool.eq_false_iff.mp (hsame.symm.trans hfound))).trans hfind, hrest⟩

end RelaxSchema
