import RelaxSchema.Proofs.Automaton.Closure
import RelaxSchema.Proofs.Automaton.Building

/-!
# Correctness of the subset construction

* `Nfa.language_determinize`: the deterministic automaton of a fragment reads what the fragment
  reads;
* `Model.exists_run_toDfa_iff`: the automaton of a content model reads the words of the model.

`SubsetTable.IsSound` is the invariant of the exploration: the index numbers the sets, and the row
of an explored set lists its successors. What a round keeps holds at the end of the exploration, and
where it is refused (`numberAll_induction`, `explore_induction`). The exploration never runs out of
fuel (`explore_spec`): each round explores one set, and the limits bound their number.
-/

namespace RelaxSchema

/-! ### Words of a deterministic automaton -/

/-- The lists of tokens that are read from the start without a missing move and may end there. -/
def Dfa.language (dfa : Dfa) : Language String :=
  {word | ∃ state, word.foldlM dfa.consume 0 = some state ∧ dfa.isFinished state = true}

namespace SubsetTable

variable {nfa : Nfa} {limits : Limits}

/-- The row of a set: its tokens, with the numbers of the sets that they lead to. -/
def IsRow (nfa : Nfa) (sets : Array (List Nat)) (set : List Nat)
    (row : List (String × Nat)) : Prop :=
  List.Forall₂ (fun (entry : String × Nat) (next : String × List Nat) =>
    entry.1 = next.1 ∧ sets[entry.2]? = some next.2) row (nfa.successors set)

/-- The invariant of the exploration. -/
structure IsSound (nfa : Nfa) (limits : Limits) (initial : List Nat)
    (table : SubsetTable) : Prop where
  /-- The initial set has the number zero. -/
  start : table.sets[0]? = some initial
  /-- The index numbers the sets. -/
  index_iff : ∀ (set : List Nat) (number : Nat),
    table.index[set]? = some number ↔ table.sets[number]? = some set
  /-- The sets that are explored come first. -/
  rows_le : table.rows.size ≤ table.sets.size
  /-- There are no more sets than the limits allow. -/
  sets_le : table.sets.size ≤ max 1 limits.maxDfaStates
  /-- The rows of the explored sets are right. -/
  isRow : ∀ (number : Nat) (set : List Nat) (row : List (String × Nat)),
    table.sets[number]? = some set → table.rows[number]? = some row → IsRow nfa table.sets set row

/-- Sets were entered; those that were there keep their numbers. -/
structure Grows (table table' : SubsetTable) : Prop where
  /-- No set is explored. -/
  rows_eq : table'.rows = table.rows
  /-- The sets keep their numbers. -/
  kept : ∀ (number : Nat) (set : List Nat),
    table.sets[number]? = some set → table'.sets[number]? = some set

theorem Grows.refl (table : SubsetTable) : Grows table table := ⟨rfl, fun _ _ h => h⟩

theorem Grows.trans {first second third : SubsetTable} (h : Grows first second)
    (h' : Grows second third) : Grows first third :=
  ⟨h'.rows_eq.trans h.rows_eq, fun number set hset => h'.kept number set (h.kept number set hset)⟩

theorem IsRow.mono {sets sets' : Array (List Nat)}
    (hkept : ∀ (number : Nat) (set : List Nat), sets[number]? = some set →
      sets'[number]? = some set) {set : List Nat}
    {row : List (String × Nat)} (h : IsRow nfa sets set row) : IsRow nfa sets' set row :=
  List.Forall₂.imp (fun _ _ hentry => ⟨hentry.1, hkept _ _ hentry.2⟩) h

theorem isSound_start (initial : List Nat) : IsSound nfa limits initial (start initial) where
  start := rfl
  index_iff set number := by
    show ((∅ : Std.HashMap (List Nat) Nat).insert initial 0)[set]? = some number
      ↔ (#[initial] : Array (List Nat))[number]? = some set
    rw [Std.HashMap.getElem?_insert]
    cases number with
    | zero => by_cases h : initial = set <;> simp [h]
    | succ number => by_cases h : initial = set <;> simp [h]
  rows_le := Nat.zero_le _
  sets_le := le_max_left _ _
  isRow number set row _ hrow := by
    have : (#[] : Array (List (String × Nat)))[number]? = some row := hrow
    simp at this

theorem getElem?_push_of_some {sets : Array (List Nat)} (set : List Nat) {number : Nat}
    {other : List Nat} (h : sets[number]? = some other) :
    (sets.push set)[number]? = some other := by
  obtain ⟨hlt, -⟩ := Array.getElem?_eq_some_iff.mp h
  rw [Array.getElem?_push, if_neg hlt.ne, h]

/-- A new set is entered behind the others, if there is room for it. -/
theorem IsSound.enter {initial set : List Nat} {table : SubsetTable}
    (hsound : IsSound nfa limits initial table) (hnew : table.index[set]? = none)
    (hroom : table.sets.size + 1 ≤ limits.maxDfaStates) : IsSound nfa limits initial
      { table with
        sets := table.sets.push set, index := table.index.insert set table.sets.size } where
  start := getElem?_push_of_some set hsound.start
  index_iff other number := by
    show (table.index.insert set table.sets.size)[other]? = some number
      ↔ (table.sets.push set)[number]? = some other
    rw [Std.HashMap.getElem?_insert, Array.getElem?_push]
    by_cases hnumber : number = table.sets.size
    · subst hnumber
      rw [if_pos rfl]
      by_cases hother : set = other
      · simp [hother]
      · rw [if_neg (by simpa using hother), hsound.index_iff, Array.getElem?_eq_none le_rfl]
        simp [hother]
    · rw [if_neg hnumber]
      by_cases hother : set = other
      · subst hother
        have hmissing := (hsound.index_iff set number).not.mp (by rw [hnew]; simp)
        simpa [Ne.symm hnumber] using hmissing
      · rw [if_neg (by simpa using hother), hsound.index_iff]
  rows_le := by
    rw [Array.size_push]
    exact hsound.rows_le.trans (Nat.le_succ _)
  sets_le := by
    rw [Array.size_push]
    exact hroom.trans (le_max_right _ _)
  isRow number other row hother hrow := by
    obtain ⟨hlt, -⟩ := Array.getElem?_eq_some_iff.mp hrow
    rw [Array.getElem?_push, if_neg (hlt.trans_le hsound.rows_le).ne] at hother
    exact (hsound.isRow number other row hother hrow).mono fun _ _ => getElem?_push_of_some set

/-- A set that is known has its number; a new one is entered, if there is room for it. -/
theorem number_cases {set : List Nat} {table table' : SubsetTable} {next : Nat}
    (h : number limits set table = .ok (next, table')) :
    (table.index[set]? = some next ∧ table' = table) ∨
      table.index[set]? = none ∧ table.sets.size + 1 ≤ limits.maxDfaStates ∧
        next = table.sets.size ∧ table' = { table with
          sets := table.sets.push set, index := table.index.insert set table.sets.size } := by
  unfold number at h
  split at h
  · rename_i known hknown
    obtain ⟨rfl, rfl⟩ := Prod.mk.inj (Except.ok.inj h)
    exact Or.inl ⟨hknown, rfl⟩
  · rename_i hnew
    obtain ⟨⟨⟩, hcheck, h⟩ := bind_eq_ok_iff.mp h
    obtain ⟨rfl, rfl⟩ := Prod.mk.inj (Except.ok.inj h)
    exact Or.inr ⟨hnew, (Limits.check_eq_ok_iff _ _ _).mp hcheck, rfl, rfl⟩

/-- Numbering fails at a new set that there is no room for. -/
theorem number_eq_error {set : List Nat} {table : SubsetTable} {error : Error}
    (h : number limits set table = .error error) : table.index[set]? = none ∧
      limits.maxDfaStates ≤ table.sets.size ∧
        error = .limitExceeded .dfaStates (table.sets.size + 1) limits.maxDfaStates := by
  unfold number at h
  split at h
  · simp at h
  · rename_i hnew
    rcases bind_eq_error_iff.mp h with hcheck | ⟨_, -, h⟩
    · unfold Limits.check at hcheck
      split at hcheck
      · simp at hcheck
      · rename_i hfull
        exact ⟨hnew, Nat.lt_succ_iff.mp (not_le.mp hfull), (Except.error.inj hcheck).symm⟩
    · simp at h

/-- Numbering a set. -/
theorem number_spec {initial set : List Nat} {table table' : SubsetTable} {next : Nat}
    (hsound : IsSound nfa limits initial table) (h : number limits set table = .ok (next, table')) :
    IsSound nfa limits initial table' ∧ Grows table table' ∧ table'.sets[next]? = some set := by
  rcases number_cases h with ⟨hknown, rfl⟩ | ⟨hnew, hroom, rfl, rfl⟩
  · exact ⟨hsound, .refl table', (hsound.index_iff _ _).mp hknown⟩
  · refine ⟨hsound.enter hnew hroom, ⟨rfl, fun _ _ => getElem?_push_of_some set⟩, ?_⟩
    rw [Array.getElem?_push, if_pos rfl]

/-- The sets of a row are numbered one after the other. -/
theorem numberAll_cons_eq_ok {token : String} {set : List Nat} {rest : List (String × List Nat)}
    {table table' : SubsetTable} {row : List (String × Nat)}
    (h : numberAll limits ((token, set) :: rest) table = .ok (row, table')) :
    ∃ next middle others, number limits set table = .ok (next, middle) ∧
      numberAll limits rest middle = .ok (others, table') ∧ row = (token, next) :: others := by
  obtain ⟨⟨next, middle⟩, hfirst, h⟩ := bind_eq_ok_iff.mp h
  obtain ⟨⟨others, last⟩, hrest, h⟩ := bind_eq_ok_iff.mp h
  obtain ⟨rfl, rfl⟩ := Prod.mk.inj (Except.ok.inj h)
  exact ⟨next, middle, others, hfirst, hrest, rfl⟩

/-- Numbering the sets of a row. -/
theorem numberAll_spec {initial : List Nat} : ∀ {entries : List (String × List Nat)}
    {table table' : SubsetTable} {row : List (String × Nat)},
    IsSound nfa limits initial table → numberAll limits entries table = .ok (row, table') →
    IsSound nfa limits initial table' ∧ Grows table table' ∧
      List.Forall₂ (fun (entry : String × Nat) (next : String × List Nat) =>
        entry.1 = next.1 ∧ table'.sets[entry.2]? = some next.2) row entries
  | [], table, table', row, hsound, h => by
    obtain ⟨rfl, rfl⟩ := Prod.mk.inj (Except.ok.inj h)
    exact ⟨hsound, .refl table, .nil⟩
  | (token, set) :: rest, table, table', row, hsound, h => by
    obtain ⟨next, middle, others, hfirst, hrest, rfl⟩ := numberAll_cons_eq_ok h
    obtain ⟨hmiddle, hgrows, hset⟩ := number_spec hsound hfirst
    obtain ⟨hlast, hgrows', hrows⟩ := numberAll_spec hmiddle hrest
    exact ⟨hlast, hgrows.trans hgrows', .cons ⟨rfl, hgrows'.kept _ _ hset⟩ hrows⟩

/-- Exploring one set. -/
theorem IsSound.push {initial set : List Nat} {table table' : SubsetTable}
    {row : List (String × Nat)} (hsound : IsSound nfa limits initial table)
    (hset : table.sets[table.rows.size]? = some set)
    (h : numberAll limits (nfa.successors set) table = .ok (row, table')) :
    IsSound nfa limits initial { table' with rows := table'.rows.push row } := by
  obtain ⟨hsound', hgrows, hrow⟩ := numberAll_spec hsound h
  have hset' := hgrows.kept _ _ hset
  rw [← hgrows.rows_eq] at hset'
  obtain ⟨hlt, -⟩ := Array.getElem?_eq_some_iff.mp hset'
  refine ⟨hsound'.start, hsound'.index_iff, ?_, hsound'.sets_le, ?_⟩
  · rw [Array.size_push]
    exact hlt
  · intro number other entry hother hentry
    replace hentry : (table'.rows.push row)[number]? = some entry := hentry
    rw [Array.getElem?_push] at hentry
    split at hentry
    · rename_i hnumber
      obtain rfl := Option.some.inj hentry
      rw [hnumber, hset'] at hother
      obtain rfl := Option.some.inj hother
      exact hrow
    · exact hsound'.isRow number other entry hother hentry

/-! ### Rounds of the exploration -/

theorem rows_number {set : List Nat} {table table' : SubsetTable} {next : Nat}
    (h : number limits set table = .ok (next, table')) : table'.rows = table.rows := by
  rcases number_cases h with ⟨-, rfl⟩ | ⟨-, -, -, rfl⟩
  · rfl
  · rfl

/-- Numbering the sets of a row keeps what numbering each of them keeps, up to the one that is
refused. -/
theorem numberAll_induction {P : SubsetTable → Prop} {entries : List (String × List Nat)}
    (hnumber : ∀ table, ∀ entry ∈ entries, ∀ next table', P table →
      number limits entry.2 table = .ok (next, table') → P table')
    {table : SubsetTable} (h : P table) :
    (∀ row table', numberAll limits entries table = .ok (row, table') → P table') ∧
      ∀ error, numberAll limits entries table = .error error →
        ∃ table', P table' ∧ ∃ entry ∈ entries, number limits entry.2 table' = .error error := by
  induction entries generalizing table with
  | nil =>
    refine ⟨fun row table' hrow => ?_, fun error herror => by simp [numberAll] at herror⟩
    obtain ⟨-, rfl⟩ := Prod.mk.inj (Except.ok.inj hrow)
    exact h
  | cons entry rest ih =>
    obtain ⟨token, set⟩ := entry
    replace ih := @ih fun table entry hentry => hnumber table entry (List.mem_cons_of_mem _ hentry)
    refine ⟨fun row table' hrow => ?_, fun error herror => ?_⟩
    · obtain ⟨next, middle, others, hfirst, hrest, -⟩ := numberAll_cons_eq_ok hrow
      exact (ih (hnumber _ _ List.mem_cons_self _ _ h hfirst)).1 _ _ hrest
    · rcases bind_eq_error_iff.mp herror with hfirst | ⟨⟨next, middle⟩, hfirst, herror⟩
      · exact ⟨table, h, _, List.mem_cons_self, hfirst⟩
      · rcases bind_eq_error_iff.mp herror with hrest | ⟨_, -, herror⟩
        · obtain ⟨table', h', entry, hentry, herror⟩ :=
            (ih (hnumber _ _ List.mem_cons_self _ _ h hfirst)).2 _ hrest
          exact ⟨table', h', entry, List.mem_cons_of_mem _ hentry, herror⟩
        · simp at herror

/-- The exploration keeps what each of its rounds keeps, up to the one that is refused. -/
theorem explore_induction {P : SubsetTable → Prop}
    (hround : ∀ table set row table', P table → table.sets[table.rows.size]? = some set →
      numberAll limits (nfa.successors set) table = .ok (row, table') →
        P { table' with rows := table'.rows.push row })
    {fuel : Nat} {table : SubsetTable} (h : P table) :
    (∀ table', explore nfa limits fuel table = .ok table' → P table') ∧
      ∀ error, explore nfa limits fuel table = .error error → ∃ table' set, P table' ∧
        table'.sets[table'.rows.size]? = some set ∧
          numberAll limits (nfa.successors set) table' = .error error := by
  induction fuel generalizing table with
  | zero =>
    refine ⟨fun table' htable => ?_, fun error herror => by simp [explore] at herror⟩
    obtain rfl := Except.ok.inj htable
    exact h
  | succ fuel ih =>
    rw [explore]
    cases hset : table.sets[table.rows.size]? with
    | none =>
      refine ⟨fun table' htable => ?_, fun error herror => by simp at herror⟩
      obtain rfl := Except.ok.inj htable
      exact h
    | some set =>
      refine ⟨fun table' htable => ?_, fun error herror => ?_⟩
      · obtain ⟨⟨row, middle⟩, hrow, hrest⟩ := bind_eq_ok_iff.mp htable
        exact (ih (hround _ _ _ _ h hset hrow)).1 _ hrest
      · rcases bind_eq_error_iff.mp herror with hrow | ⟨⟨row, middle⟩, hrow, hrest⟩
        · exact ⟨table, set, h, hset, hrow⟩
        · exact (ih (hround _ _ _ _ h hset hrow)).2 _ hrest

/-- The exploration ends when every set is explored or the fuel is used up. -/
theorem rows_explore {fuel : Nat} {table table' : SubsetTable}
    (h : explore nfa limits fuel table = .ok table') :
    table'.sets.size ≤ table'.rows.size ∨ table'.rows.size = table.rows.size + fuel := by
  induction fuel generalizing table with
  | zero =>
    obtain rfl := Except.ok.inj h
    exact Or.inr rfl
  | succ fuel ih =>
    rw [explore] at h
    split at h
    · rename_i hnone
      obtain rfl := Except.ok.inj h
      exact Or.inl (Array.getElem?_eq_none_iff.mp hnone)
    · rename_i set hset
      obtain ⟨⟨row, middle⟩, hrow, hrest⟩ := bind_eq_ok_iff.mp h
      have hrows : middle.rows = table.rows :=
        (numberAll_induction (P := fun table' => table'.rows = table.rows)
          (fun _ _ _ _ _ hrows hnext => (rows_number hnext).trans hrows) rfl).1 _ _ hrow
      rcases ih hrest with hall | hfuel
      · exact Or.inl hall
      · rw [Array.size_push, hrows] at hfuel
        exact Or.inr (by omega)

/-- More fuel makes no difference once every set is explored. -/
theorem explore_eq_of_le {fuel fuel' : Nat} (hle : fuel ≤ fuel') {table : SubsetTable}
    (hall : ∀ table', explore nfa limits fuel table = .ok table' →
      table'.sets.size ≤ table'.rows.size) :
    explore nfa limits fuel' table = explore nfa limits fuel table := by
  induction fuel generalizing fuel' table with
  | zero =>
    have hnone : table.sets[table.rows.size]? = none := Array.getElem?_eq_none (hall table rfl)
    cases fuel' with
    | zero => rfl
    | succ fuel' => rw [explore, explore, hnone]
  | succ fuel ih =>
    obtain ⟨more, rfl⟩ : ∃ more, fuel' = more + 1 := ⟨fuel' - 1, by omega⟩
    rw [explore] at hall ⊢
    rw [explore]
    cases hset : table.sets[table.rows.size]? with
    | none => rfl
    | some set =>
      rw [hset] at hall
      show numberAll limits (nfa.successors set) table >>= _
        = numberAll limits (nfa.successors set) table >>= _
      cases hnumbered : numberAll limits (nfa.successors set) table with
      | error error => rfl
      | ok numbered =>
        refine ih (Nat.le_of_succ_le_succ hle) fun table' htable' => hall table' ?_
        exact bind_eq_ok_iff.mpr ⟨numbered, hnumbered, htable'⟩

/-- **The exploration ends with every set explored**, if there is fuel for as many sets as the
limits allow. -/
theorem explore_spec {initial : List Nat} {fuel : Nat} {table table' : SubsetTable}
    (hsound : IsSound nfa limits initial table)
    (hfuel : max 1 limits.maxDfaStates ≤ table.rows.size + fuel)
    (h : explore nfa limits fuel table = .ok table') :
    IsSound nfa limits initial table' ∧ table'.rows.size = table'.sets.size := by
  have hsound' : IsSound nfa limits initial table' :=
    (explore_induction (fun _ _ _ _ hsound hset hrow => hsound.push hset hrow) hsound).1 _ h
  refine ⟨hsound', le_antisymm hsound'.rows_le ?_⟩
  rcases rows_explore h with hall | hrows
  · exact hall
  · exact hsound'.sets_le.trans (hfuel.trans hrows.ge)

/-! ### The automaton of an explored table -/

/-- Looking a token up in the row of a set. -/
theorem lookup_row {sets : Array (List Nat)} {next : String → List Nat} (token : String) :
    ∀ {tokens : List String} {row : List (String × Nat)},
      List.Forall₂ (fun (entry : String × Nat) (next : String × List Nat) =>
        entry.1 = next.1 ∧ sets[entry.2]? = some next.2) row
        (tokens.map fun token => (token, next token)) →
      (token ∈ tokens ∧ ∃ number, row.lookup token = some number ∧
          sets[number]? = some (next token)) ∨
        token ∉ tokens ∧ row.lookup token = none
  | [], _, h => by
    obtain rfl := List.forall₂_nil_right_iff.mp h
    exact Or.inr ⟨by simp, rfl⟩
  | first :: rest, row, h => by
    obtain ⟨⟨name, number⟩, others, ⟨hname, hset⟩, hothers, rfl⟩ := List.forall₂_cons_right_iff.mp h
    obtain rfl : name = first := hname
    rw [List.lookup_cons]
    by_cases heq : token = name
    · subst heq
      exact Or.inl ⟨by simp, number, by simp, hset⟩
    · have hne : (token == name) = false := by simpa using heq
      rw [hne]
      rcases lookup_row token hothers with ⟨hmem, hfound⟩ | ⟨hmissing, hnone⟩
      · exact Or.inl ⟨List.mem_cons_of_mem _ hmem, hfound⟩
      · exact Or.inr ⟨by simp [heq, hmissing], hnone⟩

section Explored

variable {initial : List Nat} {table : SubsetTable} {finish : Nat}

/-- The states of the automaton are the explored sets. -/
theorem states_toDfa (number : Nat) :
    (table.toDfa finish).states[number]? = (table.rows[number]?).bind fun row =>
      (table.sets[number]?).map fun set => ⟨row, set.contains finish⟩ := by
  rw [toDfa, Array.getElem?_zipWith]
  cases table.rows[number]? <;> cases table.sets[number]? <;> rfl

theorem isFinished_toDfa (hall : table.rows.size = table.sets.size) {number : Nat} {set : List Nat}
    (hset : table.sets[number]? = some set) :
    (table.toDfa finish).isFinished number = true ↔ finish ∈ set := by
  obtain ⟨hlt, -⟩ := Array.getElem?_eq_some_iff.mp hset
  rw [Dfa.isFinished, states_toDfa, hset, Array.getElem?_eq_getElem (hall.symm ▸ hlt)]
  simp

/-- A token that can be read leads to the number of the next set; any other leads nowhere. -/
theorem consume_toDfa (hsound : IsSound nfa limits initial table)
    (hall : table.rows.size = table.sets.size) {number : Nat} {set : List Nat}
    (hset : table.sets[number]? = some set) (token : String) :
    (token ∈ (nfa.movesFromAll set).map Prod.fst ∧
        ∃ next, (table.toDfa finish).consume number token = some next ∧
          table.sets[next]? = some (nfa.successor set token)) ∨
      token ∉ (nfa.movesFromAll set).map Prod.fst ∧
        (table.toDfa finish).consume number token = none := by
  obtain ⟨hlt, -⟩ := Array.getElem?_eq_some_iff.mp hset
  have hrow := Array.getElem?_eq_getElem (hall.symm ▸ hlt : number < table.rows.size)
  have hconsume : (table.toDfa finish).consume number token =
      (table.rows[number]).lookup token := by
    rw [Dfa.consume, states_toDfa, hset, hrow]
    rfl
  rw [hconsume, ← Alphabet.mem_ofList]
  exact lookup_row token (hsound.isRow _ _ _ hset hrow)

/-- A run of the automaton goes through the numbers of the sets that the tokens lead to. -/
theorem foldlM_consume_toDfa (hsound : IsSound nfa limits initial table)
    (hall : table.rows.size = table.sets.size) (finish : Nat) (word : List String) {number : Nat}
    {set : List Nat} (hset : table.sets[number]? = some set) :
    (∃ last, word.foldlM (table.toDfa finish).consume number = some last ∧
        table.sets[last]? = some (nfa.after set word)) ∨
      word.foldlM (table.toDfa finish).consume number = none ∧ nfa.after set word = [] := by
  induction word generalizing number set with
  | nil => exact Or.inl ⟨number, rfl, hset⟩
  | cons token word ih =>
    rw [List.foldlM_cons]
    rcases consume_toDfa hsound hall hset token with ⟨-, next, hnext, hset'⟩ | ⟨hmissing, hnone⟩
    · rw [hnext]
      exact ih hset'
    · rw [hnone]
      refine Or.inr ⟨rfl, ?_⟩
      show nfa.after (nfa.successor set token) word = []
      rw [Nfa.successor_of_not_mem hmissing, Nfa.after_nil_set]

theorem language_toDfa (hsound : IsSound nfa limits initial table)
    (hall : table.rows.size = table.sets.size) (word : List String) :
    word ∈ (table.toDfa finish).language ↔ finish ∈ nfa.after initial word := by
  rcases foldlM_consume_toDfa hsound hall finish word hsound.start with
    ⟨last, hrun, hset⟩ | ⟨hrun, hempty⟩
  · rw [← isFinished_toDfa hall hset]
    constructor
    · rintro ⟨state, hstate, hfinished⟩
      obtain rfl := Option.some.inj (hrun.symm.trans hstate)
      exact hfinished
    · exact fun hfinished => ⟨last, hrun, hfinished⟩
  · rw [hempty]
    constructor
    · rintro ⟨state, hstate, -⟩
      rw [hrun] at hstate
      simp at hstate
    · simp

end Explored

end SubsetTable

theorem Nfa.determinize_eq_ok {nfa : Nfa} {fragment : Fragment} {limits : Limits} {dfa : Dfa}
    (h : nfa.determinize fragment limits = .ok dfa) :
    ∃ table, SubsetTable.explore nfa limits (max 1 limits.maxDfaStates)
        (SubsetTable.start (nfa.closure [fragment.start])) = .ok table ∧
      dfa = table.toDfa fragment.finish := by
  obtain ⟨table, hexplore, h⟩ := bind_eq_ok_iff.mp h
  exact ⟨table, hexplore, (Except.ok.inj h).symm⟩

/-- What determinisation returns is the automaton of a table that is explored completely. -/
theorem Nfa.determinize_spec {nfa : Nfa} {fragment : Fragment} {limits : Limits} {dfa : Dfa}
    (h : nfa.determinize fragment limits = .ok dfa) :
    ∃ table, SubsetTable.IsSound nfa limits (nfa.closure [fragment.start]) table ∧
      table.rows.size = table.sets.size ∧ dfa = table.toDfa fragment.finish := by
  obtain ⟨table, hexplore, hdfa⟩ := determinize_eq_ok h
  obtain ⟨hsound, hall⟩ := SubsetTable.explore_spec (SubsetTable.isSound_start _)
    (Nat.le_add_left _ _) hexplore
  exact ⟨table, hsound, hall, hdfa⟩

/-- **The subset construction keeps the language** of a fragment. -/
theorem Nfa.language_determinize {nfa : Nfa} {fragment : Fragment} {limits : Limits} {dfa : Dfa}
    (hheld : nfa.Holds fragment) (h : nfa.determinize fragment limits = .ok dfa) :
    dfa.language = nfa.reads fragment := by
  obtain ⟨table, hsound, hall, rfl⟩ := determinize_spec h
  refine Language.ext fun word => ?_
  rw [SubsetTable.language_toDfa hsound hall, mem_after]
  constructor
  · rintro ⟨-, state, hstate, hpath⟩
    obtain rfl := List.mem_singleton.mp hstate
    exact hpath
  · exact fun hpath => ⟨hheld.2, fragment.start, List.mem_singleton_self _, hpath⟩

/-! ### The automaton of a content model -/

theorem Nfa.isClosed_empty : ({} : Nfa).IsClosed := isClosed_of_forall_lt fun s hs =>
    absurd hs (Nat.not_lt_zero s)

theorem Model.toDfa_eq_ok {model : Model} {element : String} {limits : Limits} {dfa : Dfa}
    (h : model.toDfa element limits = .ok dfa) :
    ∃ fragment nfa, Nfa.build element model {} = (.ok fragment, nfa) ∧
      nfa.determinize fragment limits = .ok dfa := by
  unfold toDfa at h
  split at h
  · exact ⟨_, _, ‹_›, h⟩
  · simp at h

theorem Model.language_toDfa {model : Model} {element : String} {limits : Limits} {dfa : Dfa}
    (h : model.toDfa element limits = .ok dfa) : dfa.language = model.language := by
  obtain ⟨fragment, nfa, hbuild, hdfa⟩ := toDfa_eq_ok h
  have hbuilt := Nfa.build_spec element model Nfa.isClosed_empty hbuild
  rw [Nfa.language_determinize hbuilt.added.holds hdfa, hbuilt.reads_eq]

/-- **Automaton construction is exact.** Whenever a content model has an automaton within the
limits, which no model with an interleave inside has, a list of tokens is read from the start
without a missing move and may end there exactly if it is a word of the model. -/
theorem Model.exists_run_toDfa_iff (model : Model) (element : String) (limits : Limits) (dfa : Dfa)
    (h : model.toDfa element limits = .ok dfa) (word : List String) :
    (∃ state, word.foldlM dfa.consume 0 = some state ∧ dfa.isFinished state = true)
      ↔ word ∈ model.language := by
  rw [← language_toDfa h]
  rfl

/-- A loop around a loop around nothing or a token, beside an empty choice. -/
theorem Model.exists_run_toDfa_nested :
    (sequence [kleene (plus (choice [sequence [], token "a"])), choice [],
        plus (token "b")]).toDfa "e" {} = .ok ⟨#[⟨[("a", 1), ("b", 2)], false⟩,
          ⟨[("a", 1), ("b", 2)], false⟩, ⟨[("b", 2)], true⟩]⟩ ∧
      ["a", "a", "b"] ∈ (sequence [kleene (plus (choice [sequence [], token "a"])), choice [],
        plus (token "b")]).language := by
  have hdfa : (sequence [kleene (plus (choice [sequence [], token "a"])), choice [],
      plus (token "b")]).toDfa "e" {} = .ok ⟨#[⟨[("a", 1), ("b", 2)], false⟩,
        ⟨[("a", 1), ("b", 2)], false⟩, ⟨[("b", 2)], true⟩]⟩ := by cbv
  exact ⟨hdfa, (exists_run_toDfa_iff _ "e" {} _ hdfa ["a", "a", "b"]).mp ⟨2, by decide, by decide⟩⟩

end RelaxSchema
