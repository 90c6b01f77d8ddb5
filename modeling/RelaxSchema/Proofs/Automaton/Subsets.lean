import RelaxSchema.Proofs.Automaton.Determinisation

/-!
# The sets of the subset construction

* `Nfa.determinize_cases`: the search is refused exactly if there are more sets of states than the
  limits allow, which it reports with the number that was one too many;
* `Nfa.isOver_two_pow`: it ends for every automaton, after at most as many rounds as there are sets
  of states.

No set is entered twice, and only sets that are met are entered (`SubsetTable.IsFaithful`). A search
that ends has entered every set that is met (`mem_sets_of_meets`), so the states of the automaton
are as many; a search that is refused has entered as many as the limits allow, and met one more.
-/

namespace RelaxSchema

namespace Nfa

variable {nfa : Nfa} {start : Nat}

/-! ### Sets that are met -/

/-- The sets that the search meets: the initial one, and those that a token leads to from one that
is met. -/
inductive Meets (nfa : Nfa) (initial : List Nat) : List Nat → Prop
  /-- The initial set is met. -/
  | initial : Meets nfa initial initial
  /-- A token leads to the set from one that is met. -/
  | successor {set : List Nat} {entry : String × List Nat} :
      Meets nfa initial set → entry ∈ nfa.successors set → Meets nfa initial entry.2

theorem Meets.exists_closure {seed set : List Nat} (h : nfa.Meets (nfa.closure seed) set) :
    ∃ seed', set = nfa.closure seed' := by
  cases h with
  | initial => exact ⟨seed, rfl⟩
  | successor _ hentry =>
    obtain ⟨token, -, rfl⟩ := List.mem_map.mp hentry
    exact ⟨_, rfl⟩

/-- Closed sets with the same states are the same list, also if they are closed in different
tables. -/
theorem closure_ext {nfa' : Nfa} {left right : List Nat}
    (h : ∀ s, s ∈ nfa.closure left ↔ s ∈ nfa'.closure right) :
    nfa.closure left = nfa'.closure right :=
  (List.pairwise_lt_range.filter _).eq_of_mem_iff (List.pairwise_lt_range.filter _) h

/-- There are no more closed sets than subsets. -/
theorem encard_meets_le (nfa : Nfa) (seed : List Nat) :
    {set | nfa.Meets (nfa.closure seed) set}.encard ≤ (2 ^ nfa.states.size : Nat) := by
  have hsub : {set | nfa.Meets (nfa.closure seed) set} ⊆
      ((List.range nfa.states.size).sublists.toFinset : Set (List Nat)) := by
    intro set hset
    obtain ⟨seed', rfl⟩ := Meets.exists_closure hset
    exact List.mem_toFinset.mpr (List.mem_sublists.mpr List.filter_sublist)
  refine (Set.encard_le_encard hsub).trans ?_
  rw [Set.encard_coe_eq_coe_finsetCard]
  have hcard := (List.range nfa.states.size).sublists.toFinset_card_le
  rw [List.length_sublists, List.length_range] at hcard
  exact_mod_cast hcard

/-! ### Sets of states after some tokens -/

/-- The states that a list of tokens leads to from a state. -/
def reached (nfa : Nfa) (start : Nat) (word : List String) : Set Nat :=
  {state | nfa.Path start word state}

/-- The sets of states that lists of tokens lead to from a state, as far as they lead anywhere. -/
def subsets (nfa : Nfa) (start : Nat) : Set (Set Nat) :=
  {set | set.Nonempty ∧ ∃ word, set = nfa.reached start word}

theorem mem_after_closure (hclosed : nfa.IsClosed) (hstart : start < nfa.states.size)
    {word : List String} {state : Nat} :
    state ∈ nfa.after (nfa.closure [start]) word ↔
      state ∈ nfa.reached start word := by
  rw [mem_after]
  constructor
  · rintro ⟨-, origin, horigin, hpath⟩
    obtain rfl := List.mem_singleton.mp horigin
    exact hpath
  · exact fun hpath => ⟨hclosed.isConfined hstart _ _ hpath, start,
      List.mem_singleton_self _, hpath⟩

theorem exists_closure_after (nfa : Nfa) (seed : List Nat) (word : List String) :
    ∃ seed', nfa.after (nfa.closure seed) word = nfa.closure seed' := by
  induction word generalizing seed with
  | nil => exact ⟨seed, rfl⟩
  | cons token word ih => exact ih _

/-- Lists of tokens lead to the same states exactly if they lead to the same closed set. -/
theorem after_eq_iff (hclosed : nfa.IsClosed) (hstart : start < nfa.states.size)
    {word word' : List String} :
    nfa.after (nfa.closure [start]) word = nfa.after (nfa.closure [start]) word' ↔
      nfa.reached start word = nfa.reached start word' := by
  rw [Set.ext_iff]
  simp only [← mem_after_closure hclosed hstart]
  constructor
  · exact fun heq state => by rw [heq]
  · intro hsame
    obtain ⟨seed, hseed⟩ := exists_closure_after nfa [start] word
    obtain ⟨seed', hseed'⟩ := exists_closure_after nfa [start] word'
    rw [hseed, hseed'] at hsame ⊢
    exact closure_ext hsame

theorem after_eq_nil_iff (hclosed : nfa.IsClosed) (hstart : start < nfa.states.size)
    {word : List String} :
    nfa.after (nfa.closure [start]) word = [] ↔ nfa.reached start word = ∅ := by
  rw [List.eq_nil_iff_forall_not_mem, Set.eq_empty_iff_forall_notMem]
  exact forall_congr' fun state => (mem_after_closure hclosed hstart).not

theorem closure_ne_nil (hclosed : nfa.IsClosed) (hstart : start < nfa.states.size) :
    nfa.closure [start] ≠ [] := by
  have hmem : start ∈ nfa.after (nfa.closure [start]) [] :=
    (mem_after_closure hclosed hstart).mpr (.done start)
  exact List.ne_nil_of_mem hmem

theorem after_concat (set : List Nat) (word : List String) (token : String) :
    nfa.after set (word ++ [token]) = nfa.successor (nfa.after set word) token :=
  List.foldl_concat ..

/-- A set that some tokens lead to is met, if it has a state. -/
theorem meets_after {initial : List Nat} {word : List String} (h : nfa.after initial word ≠ []) :
    nfa.Meets initial (nfa.after initial word) := by
  induction word using List.reverseRecOn with
  | nil => exact .initial
  | append_singleton word token ih =>
    rw [after_concat] at h ⊢
    have htoken : token ∈ (nfa.movesFromAll (nfa.after initial word)).map Prod.fst := by
      by_contra hmissing
      exact h (successor_of_not_mem hmissing)
    have hbefore : nfa.after initial word ≠ [] := by
      intro hnil
      rw [hnil] at htoken
      simp [movesFromAll] at htoken
    have hentry : (token, nfa.successor (nfa.after initial word) token)
        ∈ nfa.successors (nfa.after initial word) :=
      List.mem_map.mpr ⟨token, Alphabet.mem_ofList.mpr htoken, rfl⟩
    exact (ih hbefore).successor hentry

/-- Some tokens lead to a set that is met, and it has a state. -/
theorem Meets.exists_after (hclosed : nfa.IsClosed) {initial set : List Nat}
    (hinitial : initial ≠ []) (h : nfa.Meets initial set) :
    ∃ word, set = nfa.after initial word ∧ set ≠ [] := by
  induction h with
  | initial => exact ⟨[], rfl, hinitial⟩
  | successor hmeets hentry ih =>
    obtain ⟨word, rfl, -⟩ := ih
    obtain ⟨token, htoken, rfl⟩ := List.mem_map.mp hentry
    refine ⟨word ++ [token], (after_concat ..).symm, ?_⟩
    obtain ⟨move, hmove, rfl⟩ := List.mem_map.mp (Alphabet.mem_ofList.mp htoken)
    obtain ⟨s, -, hfrom⟩ := mem_movesFromAll.mp hmove
    -- The target of a move with the token is in the set.
    have htarget : move.2 ∈ nfa.successor (nfa.after initial word) move.1 := by
      refine mem_closure.mpr ⟨hclosed s _ (mem_targets_of_move hfrom), move.2, ?_, .done _⟩
      exact List.mem_map.mpr ⟨move, List.mem_filter.mpr ⟨hmove, by simp⟩, rfl⟩
    exact List.ne_nil_of_mem htarget

/-- The sets that are met are the sets of states that lists of tokens lead to. -/
theorem subsets_eq (hclosed : nfa.IsClosed) (hstart : start < nfa.states.size) :
    nfa.subsets start = (fun set : List Nat => {state | state ∈ set}) ''
      {set | nfa.Meets (nfa.closure [start]) set} := by
  have hsame : ∀ word,
      {state | state ∈ nfa.after (nfa.closure [start]) word} = nfa.reached start word :=
    fun word => Set.ext fun state => mem_after_closure hclosed hstart
  ext set
  constructor
  · rintro ⟨⟨state, hstate⟩, word, rfl⟩
    have hmem := (mem_after_closure hclosed hstart).mpr hstate
    exact ⟨_, meets_after (List.ne_nil_of_mem hmem), hsame word⟩
  · rintro ⟨list, hmeets, rfl⟩
    obtain ⟨word, rfl, hne⟩ := Meets.exists_after hclosed (closure_ne_nil hclosed hstart) hmeets
    exact ⟨List.exists_mem_of_ne_nil _ hne, word, hsame word⟩

theorem encard_subsets (hclosed : nfa.IsClosed) (hstart : start < nfa.states.size) :
    (nfa.subsets start).encard = {set | nfa.Meets (nfa.closure [start]) set}.encard := by
  rw [subsets_eq hclosed hstart]
  refine Set.InjOn.encard_image fun left hleft right hright heq => ?_
  obtain ⟨seed, rfl⟩ := Meets.exists_closure hleft
  obtain ⟨seed', rfl⟩ := Meets.exists_closure hright
  exact closure_ext fun s => Set.ext_iff.mp heq s

end Nfa

/-! ### The exploration -/

namespace SubsetTable

variable {nfa : Nfa} {limits : Limits} {initial : List Nat} {table : SubsetTable}

/-- The invariant of the exploration, and that no other sets are entered than those that are met. -/
structure IsFaithful (nfa : Nfa) (limits : Limits) (initial : List Nat) (table : SubsetTable) : Prop
    extends IsSound nfa limits initial table where
  /-- The sets are met. -/
  meets : ∀ set ∈ table.sets, nfa.Meets initial set

theorem isFaithful_start (initial : List Nat) : IsFaithful nfa limits initial (start initial) where
  toIsSound := isSound_start initial
  meets set hset := by
    obtain rfl : set = initial := by simpa [start] using hset
    exact .initial

theorem IsFaithful.number {set : List Nat} {table' : SubsetTable} {next : Nat}
    (h : IsFaithful nfa limits initial table) (hset : nfa.Meets initial set)
    (hnext : number limits set table = .ok (next, table')) :
    IsFaithful nfa limits initial table' where
  toIsSound := (number_spec h.toIsSound hnext).1
  meets other hother := by
    rcases number_cases hnext with ⟨-, rfl⟩ | ⟨-, -, -, rfl⟩
    · exact h.meets other hother
    · rcases Array.mem_push.mp hother with hold | rfl
      · exact h.meets other hold
      · exact hset

theorem IsFaithful.meets_successor (h : IsFaithful nfa limits initial table) {set : List Nat}
    (hset : set ∈ table.sets) : ∀ entry ∈ nfa.successors set, nfa.Meets initial entry.2 :=
  fun _ hentry => .successor (h.meets set hset) hentry

theorem IsFaithful.round {set : List Nat} {table' : SubsetTable} {row : List (String × Nat)}
    (h : IsFaithful nfa limits initial table) (hset : table.sets[table.rows.size]? = some set)
    (hrow : numberAll limits (nfa.successors set) table = .ok (row, table')) :
    IsFaithful nfa limits initial { table' with rows := table'.rows.push row } where
  toIsSound := h.toIsSound.push hset hrow
  meets := by
    have hmeets := h.meets_successor (Array.mem_of_getElem? hset)
    have hall : IsFaithful nfa limits initial table' :=
      (numberAll_induction (fun _ entry hentry _ _ hfaithful hnext =>
        hfaithful.number (hmeets entry hentry) hnext) h).1 _ _ hrow
    exact hall.meets

/-! ### The number of sets -/

/-- No set has two numbers. -/
theorem IsSound.nodup_sets (h : IsSound nfa limits initial table) : table.sets.toList.Nodup := by
  refine List.nodup_iff_getElem?_ne_getElem?.mpr fun i j hij hj heq => ?_
  have hset : table.sets[j]? = some table.sets[j] := Array.getElem?_eq_getElem hj
  rw [Array.getElem?_toList, Array.getElem?_toList, hset] at heq
  have hsame := ((h.index_iff _ _).mpr heq).symm.trans ((h.index_iff _ _).mpr hset)
  exact absurd (Option.some.inj hsame) hij.ne

theorem length_le_encard {sets : List (List Nat)} {P : List Nat → Prop} (hnodup : sets.Nodup)
    (h : ∀ set ∈ sets, P set) : (sets.length : ℕ∞) ≤ {set | P set}.encard := by
  have hsub : (sets.toFinset : Set (List Nat)) ⊆ {set | P set} :=
    fun set hset => h set (List.mem_toFinset.mp hset)
  have hle := Set.encard_le_encard hsub
  rwa [Set.encard_coe_eq_coe_finsetCard, List.toFinset_card_of_nodup hnodup] at hle

theorem IsFaithful.size_le_encard (h : IsFaithful nfa limits initial table) :
    (table.sets.size : ℕ∞) ≤ {set | nfa.Meets initial set}.encard := by
  have hle := length_le_encard h.nodup_sets fun set hset =>
    h.meets set (Array.mem_toList_iff.mp hset)
  rwa [Array.length_toList] at hle

/-- When every set is explored, all sets that are met are entered. -/
theorem IsSound.mem_sets_of_meets (h : IsSound nfa limits initial table)
    (hall : table.sets.size ≤ table.rows.size) {set : List Nat} (hset : nfa.Meets initial set) :
    set ∈ table.sets := by
  induction hset with
  | initial => exact Array.mem_of_getElem? h.start
  | successor _ hentry ih =>
    obtain ⟨number, hnumber, rfl⟩ := Array.mem_iff_getElem.mp ih
    have hrow := h.isRow number _ _ (Array.getElem?_eq_getElem hnumber)
      (Array.getElem?_eq_getElem (hnumber.trans_le hall))
    obtain ⟨move, -, -, hnext⟩ := exists_right_of_forall₂ (List.Forall₂.flip hrow) hentry
    exact Array.mem_of_getElem? hnext

/-- When every set is explored, as many sets are entered as are met. -/
theorem IsFaithful.encard_eq (h : IsFaithful nfa limits initial table)
    (hall : table.sets.size ≤ table.rows.size) :
    {set | nfa.Meets initial set}.encard = table.sets.size := by
  refine le_antisymm ?_ h.size_le_encard
  have hsub : {set | nfa.Meets initial set} ⊆ (table.sets.toList.toFinset : Set (List Nat)) :=
    fun set hset => List.mem_toFinset.mpr (Array.mem_toList_iff.mpr (h.mem_sets_of_meets hall hset))
  refine (Set.encard_le_encard hsub).trans ?_
  rw [Set.encard_coe_eq_coe_finsetCard, List.toFinset_card_of_nodup h.nodup_sets,
    Array.length_toList]

/-- A set that is refused is one more than the limits allow. -/
theorem IsFaithful.number_eq_error {set : List Nat} {error : Error}
    (h : IsFaithful nfa limits initial table) (hset : nfa.Meets initial set)
    (herror : SubsetTable.number limits set table = .error error) :
    error = .limitExceeded .dfaStates (max 1 limits.maxDfaStates + 1) limits.maxDfaStates ∧
      (max 1 limits.maxDfaStates : Nat) < {set | nfa.Meets initial set}.encard := by
  obtain ⟨hnew, hfull, rfl⟩ := SubsetTable.number_eq_error herror
  obtain ⟨hpos, -⟩ := Array.getElem?_eq_some_iff.mp h.start
  have hsize : table.sets.size = max 1 limits.maxDfaStates :=
    le_antisymm h.sets_le (max_le hpos hfull)
  have hmissing : set ∉ table.sets.toList := by
    intro hmem
    obtain ⟨number, hnumber⟩ := List.getElem?_of_mem hmem
    rw [Array.getElem?_toList] at hnumber
    exact Option.some_ne_none _ (((h.index_iff set number).mpr hnumber).symm.trans hnew)
  refine ⟨by rw [hsize], ?_⟩
  have hle := length_le_encard (List.nodup_cons.mpr ⟨hmissing, h.nodup_sets⟩)
    (List.forall_mem_cons.mpr
      ⟨hset, fun other hother => h.meets other (Array.mem_toList_iff.mp hother)⟩)
  rw [List.length_cons, Array.length_toList, hsize] at hle
  exact lt_of_lt_of_le (by exact_mod_cast Nat.lt_succ_self _) hle

theorem isFaithful_explore {fuel : Nat} (h : explore nfa limits fuel (start initial) = .ok table) :
    IsFaithful nfa limits initial table :=
  (explore_induction (fun _ _ _ _ h hset hrow => h.round hset hrow) (isFaithful_start initial)).1
    _ h

/-- A search is refused if there are more sets than the limits allow. -/
theorem explore_cases (nfa : Nfa) (limits : Limits) (initial : List Nat) (fuel : Nat) :
    (∃ table, explore nfa limits fuel (start initial) = .ok table) ∨
      explore nfa limits fuel (start initial) =
          .error (.limitExceeded .dfaStates (max 1 limits.maxDfaStates + 1) limits.maxDfaStates) ∧
        (max 1 limits.maxDfaStates : Nat) < {set | nfa.Meets initial set}.encard := by
  cases hexplore : explore nfa limits fuel (start initial) with
  | ok table => exact Or.inl ⟨table, rfl⟩
  | error error =>
    obtain ⟨table, set, hfaithful, hset, hrow⟩ := (explore_induction
      (fun _ _ _ _ h hset hrow => IsFaithful.round h hset hrow)
      (isFaithful_start initial)).2 error hexplore
    have hmeets := hfaithful.meets_successor (Array.mem_of_getElem? hset)
    -- The row was numbered up to the entry that was refused.
    obtain ⟨table', hfaithful', entry, hentry, hrefused⟩ := (numberAll_induction
      (fun _ entry hentry _ _ h hnext => IsFaithful.number h (hmeets entry hentry) hnext)
      hfaithful).2 error hrow
    obtain ⟨rfl, hlarge⟩ := hfaithful'.number_eq_error (hmeets entry hentry) hrefused
    exact Or.inr ⟨rfl, hlarge⟩

/-- Every set is explored when the rounds are as many as the sets that are met, or that are
allowed. -/
theorem sets_le_rows {fuel : Nat}
    (hfuel : {set | nfa.Meets initial set}.encard ≤ fuel ∨ max 1 limits.maxDfaStates ≤ fuel)
    (h : explore nfa limits fuel (start initial) = .ok table) :
    table.sets.size ≤ table.rows.size := by
  have hfaithful := isFaithful_explore h
  rcases rows_explore h with hall | hrows
  · exact hall
  · rw [show (start initial).rows.size = 0 from rfl, Nat.zero_add] at hrows
    rw [hrows]
    rcases hfuel with hmet | hlimit
    · exact_mod_cast hfaithful.size_le_encard.trans hmet
    · exact hfaithful.sets_le.trans hlimit

/-- A search is over after some rounds: every set that was met is explored, unless one was refused,
and there is nothing to do in further rounds. -/
structure IsOver (nfa : Nfa) (limits : Limits) (initial : List Nat) (rounds : Nat) : Prop where
  /-- Every set is explored. -/
  rows_eq : ∀ table, explore nfa limits rounds (start initial) = .ok table →
    table.rows.size = table.sets.size
  /-- Further rounds make no difference. -/
  stays : ∀ more, rounds ≤ more →
    explore nfa limits more (start initial) = explore nfa limits rounds (start initial)

theorem isOver_of_le {rounds : Nat}
    (hrounds : {set | nfa.Meets initial set}.encard ≤ rounds ∨ max 1 limits.maxDfaStates ≤ rounds) :
    IsOver nfa limits initial rounds where
  rows_eq _ htable := le_antisymm (isFaithful_explore htable).rows_le (sets_le_rows hrounds htable)
  stays _ hmore := explore_eq_of_le hmore fun _ => sets_le_rows hrounds

end SubsetTable

/-! ### The outcome of determinisation -/

namespace Nfa

variable {nfa : Nfa} {fragment : Fragment} {limits : Limits}

/-- **Determinisation is refused exactly if there are more sets than the limits allow.** -/
theorem determinize_cases (hclosed : nfa.IsClosed) (hheld : nfa.Holds fragment) (limits : Limits) :
    (∃ dfa, nfa.determinize fragment limits = .ok dfa ∧
        (nfa.subsets fragment.start).encard = dfa.states.size ∧
          dfa.states.size ≤ max 1 limits.maxDfaStates) ∨
      nfa.determinize fragment limits =
          .error (.limitExceeded .dfaStates (max 1 limits.maxDfaStates + 1) limits.maxDfaStates) ∧
        (max 1 limits.maxDfaStates : Nat) < (nfa.subsets fragment.start).encard := by
  rw [encard_subsets hclosed hheld.1, determinize]
  rcases SubsetTable.explore_cases nfa limits (nfa.closure [fragment.start])
    (max 1 limits.maxDfaStates)
    with ⟨table, htable⟩ | ⟨herror, hlarge⟩
  · have hfaithful := SubsetTable.isFaithful_explore htable
    have hall := SubsetTable.sets_le_rows (Or.inr le_rfl) htable
    have hsize : (table.toDfa fragment.finish).states.size = table.sets.size := by
      rw [SubsetTable.toDfa, Array.size_zipWith]
      exact min_eq_right hall
    refine Or.inl ⟨table.toDfa fragment.finish, by rw [htable]; rfl, ?_, ?_⟩
    · rw [hfaithful.encard_eq hall, hsize]
    · rw [hsize]
      exact hfaithful.sets_le
  · exact Or.inr ⟨by rw [herror]; rfl, hlarge⟩

/-- **The search ends for every automaton**, whatever its silent moves are. It is over after as many
rounds as there are sets of states, and determinisation returns the automaton of the table at that
time. -/
theorem isOver_two_pow (nfa : Nfa) (fragment : Fragment) (limits : Limits) :
    SubsetTable.IsOver nfa limits (nfa.closure [fragment.start]) (2 ^ nfa.states.size) ∧
      nfa.determinize fragment limits = (fun table => table.toDfa fragment.finish) <$>
        SubsetTable.explore nfa limits (2 ^ nfa.states.size)
          (SubsetTable.start (nfa.closure [fragment.start])) := by
  have hover : SubsetTable.IsOver nfa limits (nfa.closure [fragment.start]) (2 ^ nfa.states.size) :=
    SubsetTable.isOver_of_le (Or.inl (encard_meets_le nfa _))
  have hover' : SubsetTable.IsOver nfa limits (nfa.closure [fragment.start])
      (max 1 limits.maxDfaStates) :=
    SubsetTable.isOver_of_le (Or.inr le_rfl)
  refine ⟨hover, ?_⟩
  -- Both numbers of rounds suffice, so they lead to the same as the greater of them.
  rw [determinize, ← hover'.stays _ (le_max_left _ (2 ^ nfa.states.size)),
    hover.stays _ (le_max_right _ _)]
  rfl

end Nfa

end RelaxSchema
