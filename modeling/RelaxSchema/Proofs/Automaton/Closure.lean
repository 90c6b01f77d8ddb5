import RelaxSchema.Proofs.Automaton.Path

/-!
# Closed sets of states

`Nfa.mark` is a search with a stack: it marks the states that silent moves lead to.
`mem_closure` says which states a closure holds, and `mem_after` which states a set leads to by a
list of tokens, both in terms of paths.
-/

namespace RelaxSchema.Nfa

variable {nfa : Nfa}

/-- The states that are marked. -/
def IsMarked (marked : Array Bool) (s : Nat) : Prop := marked[s]? = some true

theorem isMarked_set {marked : Array Bool} {state : Nat} (h : state < marked.size) (s : Nat) :
    IsMarked (marked.set! state true) s ↔ s = state ∨ IsMarked marked s := by
  unfold IsMarked
  rw [Array.set!_eq_setIfInBounds, Array.getElem?_setIfInBounds]
  by_cases hs : state = s
  · subst hs
    simp [h]
  · simp [hs, Ne.symm hs]

theorem size_mark (marked : Array Bool) (pending : List Nat) :
    (nfa.mark marked pending).size = marked.size := by
  fun_induction nfa.mark marked pending with
  | case1 => rfl
  | case2 marked state rest hunmarked ih =>
    rw [ih, Array.set!_eq_setIfInBounds, Array.size_setIfInBounds]
  | case3 marked state rest hmarked ih => exact ih

/-- What is marked stays marked. -/
theorem isMarked_mark_of_isMarked {marked : Array Bool} {pending : List Nat} {s : Nat}
    (h : IsMarked marked s) : IsMarked (nfa.mark marked pending) s := by
  fun_induction nfa.mark marked pending with
  | case1 => exact h
  | case2 marked state rest hunmarked ih =>
    obtain ⟨hlt, -⟩ := Array.getElem?_eq_some_iff.mp hunmarked
    exact ih ((isMarked_set hlt s).mpr (Or.inr h))
  | case3 marked state rest hmarked ih => exact ih h

/-- What is marked was marked or is reached from a pending state. -/
theorem path_of_isMarked_mark {marked : Array Bool} {pending : List Nat} {s : Nat}
    (h : IsMarked (nfa.mark marked pending) s) :
    IsMarked marked s ∨ ∃ state ∈ pending, nfa.Path state [] s := by
  fun_induction nfa.mark marked pending with
  | case1 => exact Or.inl h
  | case2 marked state rest hunmarked ih =>
    obtain ⟨hlt, -⟩ := Array.getElem?_eq_some_iff.mp hunmarked
    rcases ih h with hmarked | ⟨origin, horigin, hpath⟩
    · rcases (isMarked_set hlt s).mp hmarked with rfl | hmarked
      · exact Or.inr ⟨s, by simp, .done s⟩
      · exact Or.inl hmarked
    · rcases List.mem_append.mp horigin with hsilent | hrest
      · exact Or.inr ⟨state, by simp, .silent hsilent hpath⟩
      · exact Or.inr ⟨origin, List.mem_cons_of_mem _ hrest, hpath⟩
  | case3 marked state rest hmarked ih =>
    rcases ih h with hmarked | ⟨origin, horigin, hpath⟩
    · exact Or.inl hmarked
    · exact Or.inr ⟨origin, List.mem_cons_of_mem _ horigin, hpath⟩

/-- Every pending state is marked in the end. -/
theorem isMarked_mark_of_mem {marked : Array Bool} {pending : List Nat} {s : Nat}
    (h : s ∈ pending) (hlt : s < marked.size) : IsMarked (nfa.mark marked pending) s := by
  fun_induction nfa.mark marked pending with
  | case1 => simp at h
  | case2 marked state rest hunmarked ih =>
    obtain ⟨hstate, -⟩ := Array.getElem?_eq_some_iff.mp hunmarked
    rcases List.mem_cons.mp h with rfl | h
    · exact isMarked_mark_of_isMarked ((isMarked_set hstate s).mpr (Or.inl rfl))
    · refine ih (List.mem_append_right _ h) ?_
      rw [Array.set!_eq_setIfInBounds, Array.size_setIfInBounds]
      exact hlt
  | case3 marked state rest hmarked ih =>
    rcases List.mem_cons.mp h with rfl | h
    · refine isMarked_mark_of_isMarked ?_
      unfold IsMarked
      rw [Array.getElem?_eq_getElem hlt] at hmarked ⊢
      simpa using hmarked
    · exact ih h hlt

/-- The silent moves out of marked states lead to states that are marked or pending. -/
def IsFrontier (nfa : Nfa) (marked : Array Bool) (pending : List Nat) : Prop :=
  ∀ s, IsMarked marked s → ∀ t ∈ nfa.silentFrom s, t < marked.size → IsMarked marked t ∨ t ∈ pending

/-- In the end no silent move leads out of the marked states. -/
theorem isFrontier_mark {marked : Array Bool} {pending : List Nat}
    (h : nfa.IsFrontier marked pending) : nfa.IsFrontier (nfa.mark marked pending) [] := by
  fun_induction nfa.mark marked pending with
  | case1 => exact h
  | case2 marked state rest hunmarked ih =>
    obtain ⟨hlt, -⟩ := Array.getElem?_eq_some_iff.mp hunmarked
    refine ih fun s hs t ht hsize => ?_
    rw [Array.set!_eq_setIfInBounds, Array.size_setIfInBounds] at hsize
    rw [isMarked_set hlt]
    -- The moves of the state that is marked now become pending; one that led to it is settled.
    rcases (isMarked_set hlt s).mp hs with rfl | hs
    · exact Or.inr (List.mem_append_left _ ht)
    · rcases h s hs t ht hsize with ht | ht
      · exact Or.inl (Or.inr ht)
      · rcases List.mem_cons.mp ht with rfl | ht
        · exact Or.inl (Or.inl rfl)
        · exact Or.inr (List.mem_append_right _ ht)
  | case3 marked state rest hmarked ih =>
    refine ih fun s hs t ht hsize => ?_
    rcases h s hs t ht hsize with ht | ht
    · exact Or.inl ht
    · rcases List.mem_cons.mp ht with rfl | ht
      · refine Or.inl ?_
        unfold IsMarked
        rw [Array.getElem?_eq_getElem hsize] at hmarked ⊢
        simpa using hmarked
      · exact Or.inr ht

/-! ### The states of a closure -/

/-- Only a state that exists has moves. -/
theorem Path.start_lt {s t : Nat} {word : List String} (h : nfa.Path s word t)
    (ht : t < nfa.states.size) : s < nfa.states.size := by
  cases h with
  | done => exact ht
  | silent hstep _ =>
    by_contra hs
    rw [silentFrom_of_size_le (not_lt.mp hs)] at hstep
    simp at hstep
  | read hstep _ =>
    by_contra hs
    rw [movesFrom_of_size_le (not_lt.mp hs)] at hstep
    simp at hstep

/-- A path that reads a token reads it by one of its moves. -/
theorem path_cons_iff {s u : Nat} {token : String} {word : List String} :
    nfa.Path s (token :: word) u
      ↔ ∃ r t, nfa.Path s [] r ∧ (token, t) ∈ nfa.movesFrom r ∧ nfa.Path t word u := by
  constructor
  · intro h
    generalize hword : token :: word = all at h
    induction h with
    | done => simp at hword
    | silent hstep _ ih =>
      obtain ⟨r, t, hsilent, hmove, htail⟩ := ih hword
      exact ⟨r, t, .silent hstep hsilent, hmove, htail⟩
    | read hstep htail _ =>
      obtain ⟨rfl, rfl⟩ := List.cons.inj hword
      exact ⟨_, _, .done _, hstep, htail⟩
  · rintro ⟨r, t, hsilent, hmove, htail⟩
    exact hsilent.append (.read hmove htail)

theorem not_isMarked_replicate (size s : Nat) : ¬ IsMarked (Array.replicate size false) s := by
  unfold IsMarked
  rw [Array.getElem?_replicate]
  split <;> simp

/-- A silent path keeps to the marked states, if no silent move leads out of them. -/
theorem isMarked_of_path {marked : Array Bool} (hsize : marked.size = nfa.states.size)
    (hfrontier : nfa.IsFrontier marked []) {s t : Nat} (h : nfa.Path s [] t)
    (hs : IsMarked marked s) (ht : t < nfa.states.size) : IsMarked marked t := by
  generalize hword : ([] : List String) = word at h
  induction h with
  | done => exact hs
  | silent hstep htail ih =>
    refine ih ?_ ht hword
    rcases hfrontier _ hs _ hstep (hsize ▸ htail.start_lt ht) with hmarked | hpending
    · exact hmarked
    · simp at hpending
  | read => simp at hword

/-- **The states of a closure** are those that silent paths lead to. -/
theorem mem_closure {seed : List Nat} {s : Nat} :
    s ∈ nfa.closure seed ↔ s < nfa.states.size ∧ ∃ state ∈ seed, nfa.Path state [] s := by
  have hsize : (nfa.mark (Array.replicate nfa.states.size false) seed).size = nfa.states.size := by
    rw [size_mark, Array.size_replicate]
  have hmem : s ∈ nfa.closure seed ↔ s < nfa.states.size ∧
      IsMarked (nfa.mark (Array.replicate nfa.states.size false) seed) s := by
    rw [closure, List.mem_filter, List.mem_range, Array.getD_eq_getD_getElem?]
    refine and_congr_right fun hs => ?_
    unfold IsMarked
    rw [Array.getElem?_eq_getElem (hsize.symm ▸ hs)]
    simp
  rw [hmem]
  refine and_congr_right fun hs => ⟨fun hmarked => ?_, ?_⟩
  · rcases path_of_isMarked_mark hmarked with hold | hpath
    · exact absurd hold (not_isMarked_replicate _ _)
    · exact hpath
  · rintro ⟨state, hstate, hpath⟩
    have hfrontier : nfa.IsFrontier (nfa.mark (Array.replicate nfa.states.size false) seed) [] :=
      isFrontier_mark fun s hs => absurd hs (not_isMarked_replicate _ _)
    refine isMarked_of_path hsize hfrontier hpath (isMarked_mark_of_mem hstate ?_) hs
    rw [Array.size_replicate]
    exact hpath.start_lt hs

theorem closure_nil : nfa.closure [] = [] :=
  List.eq_nil_iff_forall_not_mem.mpr fun s hs => by
    obtain ⟨-, state, hstate, -⟩ := mem_closure.mp hs
    simp at hstate

/-! ### Sets after tokens -/

/-- The set of states that a list of tokens leads to from a set. -/
def after (nfa : Nfa) (set : List Nat) (word : List String) : List Nat :=
  word.foldl nfa.successor set

theorem mem_movesFromAll {set : List Nat} {move : String × Nat} :
    move ∈ nfa.movesFromAll set ↔ ∃ s ∈ set, move ∈ nfa.movesFrom s := List.mem_flatMap

/-- A token that cannot be read leads to the empty set. -/
theorem successor_of_not_mem {set : List Nat} {token : String}
    (h : token ∉ (nfa.movesFromAll set).map Prod.fst) : nfa.successor set token = [] := by
  have hnone : (nfa.movesFromAll set).filter (fun move => move.1 = token) = [] := by
    refine List.filter_eq_nil_iff.mpr fun move hmove => ?_
    have hne : move.1 ≠ token := fun heq => h (List.mem_map.mpr ⟨move, hmove, heq⟩)
    simpa using hne
  rw [successor, hnone, List.map_nil, closure_nil]

theorem after_nil_set (word : List String) : nfa.after [] word = [] := by
  induction word with
  | nil => rfl
  | cons token word ih =>
    show nfa.after (nfa.successor [] token) word = []
    rw [successor_of_not_mem (by simp [movesFromAll]), ih]

/-- **The set after some tokens** holds the states that paths with these tokens lead to. -/
theorem mem_after {seed : List Nat} {word : List String} {s : Nat} :
    s ∈ nfa.after (nfa.closure seed) word
      ↔ s < nfa.states.size ∧ ∃ state ∈ seed, nfa.Path state word s := by
  induction word generalizing seed with
  | nil => exact mem_closure
  | cons token word ih =>
    show s ∈ nfa.after (nfa.closure _) word ↔ _
    rw [ih]
    refine and_congr_right fun hs => ⟨?_, ?_⟩
    · rintro ⟨t, ht, hpath⟩
      obtain ⟨move, hmove, rfl⟩ := List.mem_map.mp ht
      obtain ⟨hall, heq⟩ := List.mem_filter.mp hmove
      have htoken : move.1 = token := by simpa using heq
      obtain ⟨r, hr, hfrom⟩ := mem_movesFromAll.mp hall
      obtain ⟨-, state, hstate, hsilent⟩ := mem_closure.mp hr
      exact ⟨state, hstate, path_cons_iff.mpr ⟨r, move.2, hsilent, htoken ▸ hfrom, hpath⟩⟩
    · rintro ⟨state, hstate, hpath⟩
      obtain ⟨r, t, hsilent, hmove, htail⟩ := path_cons_iff.mp hpath
      have hr : r < nfa.states.size := (Path.read hmove htail).start_lt hs
      refine ⟨t, List.mem_map.mpr ⟨(token, t), List.mem_filter.mpr ⟨?_, by simp⟩, rfl⟩, htail⟩
      exact mem_movesFromAll.mpr ⟨r, mem_closure.mpr ⟨hr, state, hstate, hsilent⟩, hmove⟩

end RelaxSchema.Nfa
