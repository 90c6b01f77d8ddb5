import RelaxSchema.Proofs.Automaton.AccessWords
import RelaxSchema.Proofs.Automaton.Subsets

/-!
# The numbers of states

Determinisation numbers sets in the order in which it meets them, while it goes through their
successors in the order of the numbers.

* `Nfa.isBreadthFirst_determinize`: the states of a deterministic automaton are numbered breadth
  first;
* `Nfa.determinize_canonical`: so their least access words are in the order of the numbers, and the
  numbers do not depend on those of the states before.

What is kept by each round is that sets are entered in the order of the moves to them
(`SubsetTable.IsInOrder`). The sets that a round enters follow the others, and each other in the
order of their tokens (`entersInOrder_numberAll`).
-/

namespace RelaxSchema

theorem Nfa.map_fst_successors (nfa : Nfa) (set : List Nat) :
    (nfa.successors set).map Prod.fst = Alphabet.ofList ((nfa.movesFromAll set).map Prod.fst) := by
  rw [successors, List.map_map]
  exact List.map_id _

namespace SubsetTable

variable {nfa : Nfa} {limits : Limits} {initial : List Nat} {table table' : SubsetTable}
    {finish : Nat} {row : List (String × Nat)} {state next : Nat} {token : String}

/-! ### One round -/

/-- The numbers that were added in a row are there, in the order of the tokens. -/
structure EntersInOrder (size size' : Nat) (row : List (String × Nat)) : Prop where
  /-- Each number that was added is in the row. -/
  entered : ∀ number, size ≤ number → number < size' → ∃ move ∈ row, move.2 = number
  /-- Those that are smaller than another one have smaller tokens. -/
  entered_before : ∀ move ∈ row, ∀ number, size ≤ number → number < move.2 →
    ∃ earlier ∈ row, earlier.2 = number ∧ earlier.1 < move.1

/-- A set that is numbered was there, or is entered behind the others. -/
theorem number_lt_or_eq {set : List Nat} (hsound : IsSound nfa limits initial table)
    (h : number limits set table = .ok (next, table')) :
    (next < table.sets.size ∧ table'.sets.size = table.sets.size) ∨
      next = table.sets.size ∧ table'.sets.size = table.sets.size + 1 := by
  rcases number_cases h with ⟨hknown, rfl⟩ | ⟨-, -, rfl, rfl⟩
  · exact Or.inl ⟨(Array.getElem?_eq_some_iff.mp ((hsound.index_iff _ _).mp hknown)).1, rfl⟩
  · exact Or.inr ⟨rfl, Array.size_push _⟩

theorem entersInOrder_numberAll :
    ∀ {entries : List (String × List Nat)} {table table' : SubsetTable}
    {row : List (String × Nat)}, IsSound nfa limits initial table →
    Alphabet.Ordered (entries.map Prod.fst) → numberAll limits entries table = .ok (row, table') →
    EntersInOrder table.sets.size table'.sets.size row
  | [], table, table', row, _, _, h => by
    obtain ⟨rfl, rfl⟩ := Prod.mk.inj (Except.ok.inj h)
    exact ⟨fun number hle hlt => absurd hlt (not_lt.mpr hle), fun move hmove => by simp at hmove⟩
  | (token, set) :: rest, table, table', row, hsound, hordered, h => by
    obtain ⟨next, middle, others, hfirst, hrest, rfl⟩ := numberAll_cons_eq_ok h
    have hmiddle := (number_spec hsound hfirst).1
    obtain ⟨hbelow, hordered⟩ := List.pairwise_cons.mp hordered
    obtain ⟨hentered, hbefore⟩ := entersInOrder_numberAll hmiddle hordered hrest
    have hnext := number_lt_or_eq hsound hfirst
    refine ⟨fun number hle hlt => ?_, List.forall_mem_cons.mpr ⟨fun number hle hlt => ?_, ?_⟩⟩
    · by_cases hlater : middle.sets.size ≤ number
      · obtain ⟨move, hmove, hnumber⟩ := hentered number hlater hlt
        exact ⟨move, List.mem_cons_of_mem _ hmove, hnumber⟩
      · exact ⟨(token, next), List.mem_cons_self, by omega⟩
    -- Nothing was entered before the first set of the row.
    · replace hlt : number < next := hlt
      omega
    · intro move hmove number hle hlt
      by_cases hlater : middle.sets.size ≤ number
      · obtain ⟨earlier, hearlier, hnumber⟩ := hbefore move hmove number hlater hlt
        exact ⟨earlier, List.mem_cons_of_mem _ hearlier, hnumber⟩
      · obtain ⟨entry, hentry, htoken, -⟩ :=
          exists_right_of_forall₂ (numberAll_spec hmiddle hrest).2.2 hmove
        refine ⟨(token, next), List.mem_cons_self, by omega, ?_⟩
        rw [htoken]
        exact hbelow entry.1 (List.mem_map_of_mem hentry)

/-! ### All rounds -/

/-- A move of an explored set. -/
def Moves (table : SubsetTable) (state : Nat) (token : String) (next : Nat) : Prop :=
  ∃ row, table.rows[state]? = some row ∧ (token, next) ∈ row

theorem Moves.lt_size (h : table.Moves state token next) : state < table.rows.size := by
  obtain ⟨row, hrow, -⟩ := h
  exact (Array.getElem?_eq_some_iff.mp hrow).1

/-- The moves after one more set is explored. -/
theorem moves_push_iff :
    ({ table with rows := table.rows.push row } : SubsetTable).Moves state token next ↔
    table.Moves state token next ∨ state = table.rows.size ∧ (token, next) ∈ row := by
  unfold Moves
  rw [Array.getElem?_push]
  by_cases hstate : state = table.rows.size
  · rw [if_pos hstate, Array.getElem?_eq_none hstate.ge]
    simp [hstate]
  · rw [if_neg hstate]
    simp [hstate]

/-- Sets are entered in the order of the moves to them. -/
structure IsInOrder (table : SubsetTable) : Prop where
  /-- A move from a set with a smaller number leads to any set but the initial one. -/
  entered : ∀ {next}, 0 < next → next < table.sets.size → ∃ state < next, ∃ token,
    table.Moves state token next
  /-- The sets below the target of a move are entered by moves before it. -/
  entered_before : ∀ {state token next}, table.Moves state token next → ∀ other, 0 < other →
    other < next → ∃ state' token', table.Moves state' token' other ∧
      (state' < state ∨ state' = state ∧ token' < token)

theorem isInOrder_start (initial : List Nat) : IsInOrder (start initial) where
  entered hpos hlt := absurd hlt (not_lt.mpr hpos)
  entered_before hmove := absurd hmove.lt_size (Nat.not_lt_zero _)

theorem IsInOrder.round {set : List Nat} (h : IsInOrder table)
    (hsound : IsSound nfa limits initial table) (hset : table.sets[table.rows.size]? = some set)
    (hrow : numberAll limits (nfa.successors set) table = .ok (row, table')) :
    IsInOrder { table' with rows := table'.rows.push row } := by
  obtain ⟨hrows, -⟩ := (numberAll_spec hsound hrow).2.1
  have hmoves : ∀ {state token next}, table'.Moves state token next ↔
      table.Moves state token next := by
    intro state token next
    rw [Moves, hrows, Moves]
  have hordered : Alphabet.Ordered ((nfa.successors set).map Prod.fst) := by
    rw [Nfa.map_fst_successors]
    exact Alphabet.ordered_ofList _
  obtain ⟨hentered, hbefore⟩ := entersInOrder_numberAll hsound hordered hrow
  obtain ⟨hexplored, -⟩ := Array.getElem?_eq_some_iff.mp hset
  refine ⟨fun {next} hpos hlt => ?_, fun {state token next} hmove other hpos hlt => ?_⟩
  · by_cases hold : next < table.sets.size
    · obtain ⟨state, hstate, token, hmove⟩ := h.entered hpos hold
      exact ⟨state, hstate, token, moves_push_iff.mpr (Or.inl (hmoves.mpr hmove))⟩
    · -- The set is entered by the new row.
      obtain ⟨move, hmove, rfl⟩ := hentered next (not_lt.mp hold) hlt
      refine ⟨table.rows.size, hexplored.trans_le (not_lt.mp hold), move.1,
        moves_push_iff.mpr (Or.inr ?_)⟩
      rw [hrows]
      exact ⟨rfl, hmove⟩
  · rcases moves_push_iff.mp hmove with hmove | ⟨rfl, hin⟩
    · obtain ⟨state', token', hmove', hless⟩ := h.entered_before (hmoves.mp hmove) other hpos hlt
      exact ⟨state', token', moves_push_iff.mpr (Or.inl (hmoves.mpr hmove')), hless⟩
    · by_cases hold : other < table.sets.size
      · -- All sets that were there are entered by the rows that were there.
        obtain ⟨state', -, token', hmove'⟩ := h.entered hpos hold
        exact ⟨state', token', moves_push_iff.mpr (Or.inl (hmoves.mpr hmove')),
          Or.inl (hrows ▸ hmove'.lt_size)⟩
      · obtain ⟨earlier, hearlier, rfl, hless⟩ :=
          hbefore (token, next) hin other (not_lt.mp hold) hlt
        exact ⟨table'.rows.size, earlier.1, moves_push_iff.mpr (Or.inr ⟨rfl, hearlier⟩),
          Or.inr ⟨rfl, hless⟩⟩

/-! ### The automaton of an explored table -/

theorem IsRow.ordered {sets : Array (List Nat)} {set : List Nat} (h : IsRow nfa sets set row) :
    Alphabet.Ordered (row.map Prod.fst) := by
  have htokens : row.map Prod.fst = (nfa.successors set).map Prod.fst := by
    rw [← List.forall₂_eq_eq_eq, List.forall₂_map_left_iff, List.forall₂_map_right_iff]
    exact List.Forall₂.imp (fun _ _ hentry => hentry.1) h
  rw [htokens, Nfa.map_fst_successors]
  exact Alphabet.ordered_ofList _

section Explored

variable (hsound : IsSound nfa limits initial table) (hall : table.rows.size = table.sets.size)

include hsound hall

theorem isRow_of_explored (hrow : table.rows[state]? = some row) :
    ∃ set, table.sets[state]? = some set ∧ IsRow nfa table.sets set row := by
  obtain ⟨hlt, -⟩ := Array.getElem?_eq_some_iff.mp hrow
  have hset := Array.getElem?_eq_getElem (hall ▸ hlt)
  exact ⟨_, hset, hsound.isRow _ _ _ hset hrow⟩

theorem consume_toDfa_iff_moves :
    (table.toDfa finish).consume state token = some next ↔ table.Moves state token next := by
  rw [Dfa.consume, states_toDfa, Moves]
  cases hrow : table.rows[state]? with
  | none => simp
  | some row =>
    obtain ⟨set, hset, hisRow⟩ := isRow_of_explored hsound hall hrow
    have hnodup : (row.map Prod.fst).Nodup := hisRow.ordered.imp ne_of_lt
    rw [hset]
    show row.lookup token = some next ↔ ∃ other, some row = some other ∧ (token, next) ∈ other
    rw [lookup_eq_some_iff_mem hnodup]
    constructor
    · exact fun hmem => ⟨row, rfl, hmem⟩
    · rintro ⟨other, hother, hmem⟩
      exact Option.some.inj hother ▸ hmem

theorem isBreadthFirst_toDfa (hinOrder : IsInOrder table) :
    (table.toDfa finish).IsBreadthFirst := by
  have hsize : (table.toDfa finish).states.size = table.sets.size := by
    rw [toDfa, Array.size_zipWith, hall, min_self]
  have hmoves : ∀ {state token next}, (table.toDfa finish).consume state token = some next ↔
      table.Moves state token next := consume_toDfa_iff_moves hsound hall
  constructor
  · rw [hsize]
    exact (Array.getElem?_eq_some_iff.mp hsound.start).1
  · intro entry hentry
    obtain ⟨state, hstate⟩ := Array.getElem?_of_mem hentry
    rw [states_toDfa] at hstate
    obtain ⟨row, hrow, hmap⟩ := Option.bind_eq_some_iff.mp hstate
    obtain ⟨set, -, rfl⟩ := Option.map_eq_some_iff.mp hmap
    obtain ⟨_, -, hisRow⟩ := isRow_of_explored hsound hall hrow
    exact hisRow.ordered
  · intro state token next hconsume
    obtain ⟨row, hrow, hmem⟩ := hmoves.mp hconsume
    obtain ⟨set, -, hisRow⟩ := isRow_of_explored hsound hall hrow
    obtain ⟨entry, -, -, hnext⟩ := exists_right_of_forall₂ hisRow hmem
    rw [hsize]
    exact (Array.getElem?_eq_some_iff.mp hnext).1
  · intro next hpos hlt
    obtain ⟨state, hstate, token, hmove⟩ := hinOrder.entered hpos (hsize ▸ hlt)
    exact ⟨state, hstate, token, hmoves.mpr hmove⟩
  · intro state token next hconsume other hpos hlt
    obtain ⟨state', token', hmove, hless⟩ :=
      hinOrder.entered_before (hmoves.mp hconsume) other hpos hlt
    exact ⟨state', token', hmoves.mpr hmove, hless⟩

end Explored

end SubsetTable

/-- **Determinisation numbers the states breadth first.** -/
theorem Nfa.isBreadthFirst_determinize {nfa : Nfa} {fragment : Fragment} {limits : Limits}
    {dfa : Dfa} (h : nfa.determinize fragment limits = .ok dfa) : dfa.IsBreadthFirst := by
  obtain ⟨table, hexplore, rfl⟩ := determinize_eq_ok h
  obtain ⟨hsound, hall⟩ :=
    SubsetTable.explore_spec (SubsetTable.isSound_start _) (Nat.le_add_left _ _) hexplore
  have hinOrder := (SubsetTable.explore_induction
    (P := fun table => SubsetTable.IsSound nfa limits (nfa.closure [fragment.start]) table ∧
      table.IsInOrder)
    (fun _ _ _ _ h hset hrow => ⟨h.1.push hset hrow, h.2.round h.1 hset hrow⟩)
    ⟨SubsetTable.isSound_start _, SubsetTable.isInOrder_start _⟩).1 table hexplore
  exact SubsetTable.isBreadthFirst_toDfa hsound hall hinOrder.2

/-! ### The states before determinisation -/

namespace Nfa

variable {nfa nfa' : Nfa} {fragment : Fragment} {limits limits' : Limits} {dfa dfa' : Dfa}
  {rename : Nat → Nat}

section Words

variable (hclosed : nfa.IsClosed) (hheld : nfa.Holds fragment)
    (h : nfa.determinize fragment limits = .ok dfa)

include hclosed hheld h

/-- A list of tokens leads to the number of a set, which has states, or nowhere, if the set has
none. -/
theorem exists_table_foldlM_consume : ∃ table,
    SubsetTable.IsSound nfa limits (nfa.closure [fragment.start]) table ∧ ∀ word : List String,
      (∃ last, word.foldlM dfa.consume 0 = some last ∧
          table.sets[last]? = some (nfa.after (nfa.closure [fragment.start]) word) ∧
          nfa.after (nfa.closure [fragment.start]) word ≠ []) ∨
        word.foldlM dfa.consume 0 = none ∧ nfa.after (nfa.closure [fragment.start]) word = [] := by
  obtain ⟨table, hexplore, rfl⟩ := determinize_eq_ok h
  have hfaithful := SubsetTable.isFaithful_explore hexplore
  obtain ⟨hsound, hall⟩ :=
    SubsetTable.explore_spec (SubsetTable.isSound_start _) (Nat.le_add_left _ _) hexplore
  refine ⟨table, hsound, fun word => ?_⟩
  rcases SubsetTable.foldlM_consume_toDfa hsound hall fragment.finish word hsound.start with
    ⟨last, hrun, hset⟩ | hnowhere
  · -- A set that was entered is one that was met, and these have states.
    have hmeets := hfaithful.meets _ (Array.mem_of_getElem? hset)
    obtain ⟨-, -, hne⟩ := hmeets.exists_after hclosed (closure_ne_nil hclosed hheld.1)
    exact Or.inl ⟨last, hrun, hset, hne⟩
  · exact Or.inr hnowhere

theorem foldlM_consume_eq_none_iff (word : List String) :
    word.foldlM dfa.consume 0 = none ↔ nfa.reached fragment.start word = ∅ := by
  obtain ⟨table, -, hrun⟩ := exists_table_foldlM_consume hclosed hheld h
  rw [← after_eq_nil_iff hclosed hheld.1]
  rcases hrun word with ⟨last, hlast, -, hne⟩ | ⟨hnone, hnil⟩
  · rw [hlast]
    exact ⟨fun hnone => absurd hnone (Option.some_ne_none last), fun hnil => absurd hnil hne⟩
  · exact ⟨fun _ => hnil, fun _ => hnone⟩

/-- **What decides where a list of tokens leads** is which states it leads to in the automaton
before. -/
theorem foldlM_consume_eq_iff (word word' : List String) :
    word.foldlM dfa.consume 0 = word'.foldlM dfa.consume 0 ↔
      nfa.reached fragment.start word = nfa.reached fragment.start word' := by
  obtain ⟨table, hsound, hrun⟩ := exists_table_foldlM_consume hclosed hheld h
  rw [← after_eq_iff hclosed hheld.1]
  rcases hrun word with ⟨last, hlast, hset, hne⟩ | ⟨hnone, hnil⟩
  · rcases hrun word' with ⟨last', hlast', hset', -⟩ | ⟨hnone', hnil'⟩
    · rw [hlast, hlast']
      constructor
      · intro heq
        obtain rfl := Option.some.inj heq
        exact Option.some.inj (hset.symm.trans hset')
      · intro heq
        rw [heq] at hset
        exact ((hsound.index_iff _ _).mpr hset).symm.trans ((hsound.index_iff _ _).mpr hset')
    · rw [hlast, hnone', hnil']
      exact ⟨fun heq => absurd heq (Option.some_ne_none last), fun heq => absurd heq hne⟩
  · rw [hnone, hnil, eq_comm, foldlM_consume_eq_none_iff hclosed hheld h,
      ← after_eq_nil_iff hclosed hheld.1, eq_comm]

end Words

/-- The states of a table are in another one under other numbers, with the same moves. The other
table may have more states, before, between and behind them. -/
structure IsRenumbering (nfa nfa' : Nfa) (rename : Nat → Nat) : Prop where
  /-- The new numbers are numbers of states. -/
  lt_size : ∀ s < nfa.states.size, rename s < nfa'.states.size
  /-- No two states get the same number. -/
  injOn : Set.InjOn rename (Set.Iio nfa.states.size)
  /-- The silent moves are the same, in whatever order. -/
  silentFrom_perm : ∀ s < nfa.states.size,
    (nfa'.silentFrom (rename s)).Perm ((nfa.silentFrom s).map rename)
  /-- The labelled moves are the same, in whatever order. -/
  movesFrom_perm : ∀ s < nfa.states.size,
    (nfa'.movesFrom (rename s)).Perm ((nfa.movesFrom s).map fun move => (move.1, rename move.2))

namespace IsRenumbering

theorem mem_silentFrom_iff (h : nfa.IsRenumbering nfa' rename) {s target : Nat}
    (hs : s < nfa.states.size) :
    target ∈ nfa'.silentFrom (rename s) ↔ ∃ t ∈ nfa.silentFrom s, rename t = target := by
  rw [(h.silentFrom_perm s hs).mem_iff, List.mem_map]

theorem mem_movesFrom_iff (h : nfa.IsRenumbering nfa' rename) {s target : Nat} {token : String}
    (hs : s < nfa.states.size) : (token, target) ∈ nfa'.movesFrom (rename s) ↔
      ∃ t, (token, t) ∈ nfa.movesFrom s ∧ rename t = target := by
  rw [(h.movesFrom_perm s hs).mem_iff, List.mem_map]
  constructor
  · rintro ⟨⟨_, t⟩, ht, heq⟩
    obtain ⟨rfl, hrename⟩ := Prod.mk.inj heq
    exact ⟨t, ht, hrename⟩
  · rintro ⟨t, ht, rfl⟩
    exact ⟨(token, t), ht, rfl⟩

theorem path (h : nfa.IsRenumbering nfa' rename) (hclosed : nfa.IsClosed) {s t : Nat}
    {word : List String} (hpath : nfa.Path s word t) (hs : s < nfa.states.size) :
    nfa'.Path (rename s) word (rename t) := by
  induction hpath with
  | done => exact .done _
  | silent hstep _ ih =>
    exact .silent ((h.mem_silentFrom_iff hs).mpr ⟨_, hstep, rfl⟩)
      (ih (hclosed _ _ (mem_targets_of_silent hstep)))
  | read hstep _ ih =>
    exact .read ((h.mem_movesFrom_iff hs).mpr ⟨_, hstep, rfl⟩)
      (ih (hclosed _ _ (mem_targets_of_move hstep)))

theorem exists_path (h : nfa.IsRenumbering nfa' rename) (hclosed : nfa.IsClosed)
    {source target : Nat} {word : List String} (hpath : nfa'.Path source word target) {s : Nat}
    (hs : s < nfa.states.size) (hsource : rename s = source) :
    ∃ t, nfa.Path s word t ∧ rename t = target := by
  induction hpath generalizing s with
  | done => exact ⟨s, .done s, hsource⟩
  | silent hstep _ ih =>
    obtain ⟨t, ht, heq⟩ := (h.mem_silentFrom_iff hs).mp (hsource ▸ hstep)
    obtain ⟨last, hlast, hrename⟩ := ih (hclosed _ _ (mem_targets_of_silent ht)) heq
    exact ⟨last, .silent ht hlast, hrename⟩
  | read hstep _ ih =>
    obtain ⟨t, ht, heq⟩ := (h.mem_movesFrom_iff hs).mp (hsource ▸ hstep)
    obtain ⟨last, hlast, hrename⟩ := ih (hclosed _ _ (mem_targets_of_move ht)) heq
    exact ⟨last, .read ht hlast, hrename⟩

theorem reached_eq (h : nfa.IsRenumbering nfa' rename) (hclosed : nfa.IsClosed) {s : Nat}
    (hs : s < nfa.states.size) (word : List String) :
    nfa'.reached (rename s) word = rename '' nfa.reached s word := by
  ext target
  constructor
  · exact fun hpath => h.exists_path hclosed hpath hs rfl
  · rintro ⟨t, hpath, rfl⟩
    exact h.path hclosed hpath hs

/-- **The numbers of the states before determinisation do not matter**, nor what else is in the
table. -/
theorem determinize_eq (hrename : nfa.IsRenumbering nfa' rename) (hclosed : nfa.IsClosed)
    (hclosed' : nfa'.IsClosed) (hheld : nfa.Holds fragment)
    (h : nfa.determinize fragment limits = .ok dfa)
    (h' : nfa'.determinize ⟨rename fragment.start, rename fragment.finish⟩ limits' = .ok dfa') :
    dfa = dfa' := by
  have hheld' : nfa'.Holds ⟨rename fragment.start, rename fragment.finish⟩ :=
    ⟨hrename.lt_size _ hheld.1, hrename.lt_size _ hheld.2⟩
  have hreached := hrename.reached_eq hclosed hheld.1
  have hsub : ∀ word, nfa.reached fragment.start word ⊆ Set.Iio nfa.states.size :=
    fun word _ hpath => hclosed.isConfined hheld.1 _ _ hpath
  have hgraph : dfa.SameGraph dfa' := by
    constructor
    · intro word word'
      rw [foldlM_consume_eq_iff hclosed hheld h, foldlM_consume_eq_iff hclosed' hheld' h', hreached,
        hreached, hrename.injOn.image_eq_image_iff (hsub word) (hsub word')]
    · intro word
      rw [foldlM_consume_eq_none_iff hclosed hheld h, foldlM_consume_eq_none_iff hclosed' hheld' h',
        hreached, Set.image_eq_empty]
  refine hgraph.eq (isBreadthFirst_determinize h) (isBreadthFirst_determinize h') ?_
  rw [language_determinize hheld h, language_determinize hheld' h']
  refine Language.ext fun word => ?_
  show fragment.finish ∈ nfa.reached fragment.start word ↔
    rename fragment.finish ∈ nfa'.reached (rename fragment.start) word
  rw [hreached, hrename.injOn.mem_image_iff (hsub word) hheld.2]

end IsRenumbering

/-! ### The numbering -/

/-- **Deterministic automata are trimmed and numbered in one way.** All moves lead to states. Every
state has a least access word, and these are in the order of the numbers: shorter words first, and
words of one length token by token. So an automaton with the same moves under other numbers has the
same rows, and if the states before determinisation get other numbers, among whatever other states,
the automaton is the same. -/
theorem determinize_canonical (h : nfa.determinize fragment limits = .ok dfa) :
    (∀ entry ∈ dfa.states, ∀ move ∈ entry.row, move.2 < dfa.states.size) ∧
    (∀ state < dfa.states.size, ∃ word, dfa.IsLeastAccess word state) ∧
    (∀ state state' word word', state < state' → dfa.IsLeastAccess word state →
      dfa.IsLeastAccess word' state' → List.Shortlex (· < ·) word word') ∧
    (∀ nfa' fragment' limits' dfa' rename, determinize nfa' fragment' limits' = .ok dfa' →
      dfa.IsRenaming dfa' rename → (∀ state < dfa.states.size, rename state = state) ∧
        dfa.states.map DfaState.row = dfa'.states.map DfaState.row) ∧
    (nfa.IsClosed → nfa.Holds fragment → ∀ nfa' limits' dfa' rename, IsClosed nfa' →
      nfa.IsRenumbering nfa' rename →
      determinize nfa' ⟨rename fragment.start, rename fragment.finish⟩ limits' = .ok dfa' →
        dfa = dfa') := by
  have hdfa := isBreadthFirst_determinize h
  refine ⟨fun entry hentry move hmove => ?_, fun state hlt => hdfa.exists_isLeastAccess hlt,
    fun state state' word word' hlt hword hword' => hdfa.shortlex_of_lt hword hword' hlt,
    fun nfa' fragment' limits' dfa' rename h' hrename => ?_,
    fun hclosed hheld nfa' limits' dfa' rename hclosed' hrename h' =>
      hrename.determinize_eq hclosed hclosed' hheld h h'⟩
  · obtain ⟨state, hlt, rfl⟩ := Array.mem_iff_getElem.mp hentry
    have hnodup : (dfa.states[state].row.map Prod.fst).Nodup := (hdfa.ordered _ hentry).imp ne_of_lt
    have hconsume : dfa.consume state move.1 = some move.2 := by
      rw [Dfa.consume, Array.getElem?_eq_getElem hlt]
      exact (lookup_eq_some_iff_mem hnodup).mpr hmove
    exact hdfa.next_lt hconsume
  · have hdfa' := isBreadthFirst_determinize h'
    exact ⟨fun state hlt => hrename.rename_eq hdfa hdfa' hlt,
      (hrename.sameGraph hdfa).map_row_eq hdfa hdfa'⟩

/-- Two ways that meet again and lead back to the start. The second table has the states from the
last to the first, behind another state. -/
theorem determinize_canonical_merging :
    let nfa : Nfa :=
  ⟨#[⟨[("b", 1), ("a", 2)], []⟩, ⟨[("c", 3)], []⟩, ⟨[("c", 3)], []⟩, ⟨[("a", 0)], []⟩]⟩
    let nfa' : Nfa := ⟨#[⟨[("d", 0)], [4]⟩, ⟨[("a", 4)], []⟩, ⟨[("c", 1)], []⟩, ⟨[("c", 1)], []⟩,
      ⟨[("a", 2), ("b", 3)], []⟩]⟩
    let dfa : Dfa := ⟨#[⟨[("a", 1), ("b", 2)], false⟩, ⟨[("c", 3)], false⟩, ⟨[("c", 3)], false⟩,
      ⟨[("a", 0)], true⟩]⟩
    nfa.determinize ⟨0, 3⟩ {} = .ok dfa ∧ (∃ word, dfa.IsLeastAccess word 3) ∧
      nfa.IsRenumbering nfa' (4 - ·) ∧ ∀ dfa', nfa'.determinize ⟨4, 1⟩ {} = .ok dfa' →
        dfa = dfa' := by
  intro nfa nfa' dfa
  have hdfa : nfa.determinize ⟨0, 3⟩ {} = .ok dfa := by cbv
  have hclosed : nfa.IsClosed := isClosed_of_forall_lt (by decide)
  have hclosed' : nfa'.IsClosed := isClosed_of_forall_lt (by decide)
  have hrename : nfa.IsRenumbering nfa' (4 - ·) := by
    refine ⟨by decide, fun s hs t ht heq => ?_, by decide, by decide⟩
    have hlt : s < 4 := hs
    have hlt' : t < 4 := ht
    replace heq : 4 - s = 4 - t := heq
    omega
  obtain ⟨-, haccess, -, -, hsame⟩ := determinize_canonical hdfa
  exact ⟨hdfa, haccess 3 (by decide), hrename,
    fun dfa' hdfa' => hsame hclosed ⟨by decide, by decide⟩ nfa' {} dfa' _ hclosed' hrename hdfa'⟩

end Nfa

end RelaxSchema
