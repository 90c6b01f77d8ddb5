import RelaxSchema.Proofs.Automaton.Determinisation

/-!
# The tokens of an automaton

* `Dfa.mem_tokens_iff`: the tokens of a table are those that some state can read;
* `Model.mem_occurrences_of_consume`: the automaton of a content model reads no token that does not
  occur in the model, in whatever state it is;
* `Model.mentions_toDfa_iff`: each token of the model is read in some state.
-/

namespace RelaxSchema

/-! ### Tokens of a table -/

namespace Dfa

variable {dfa : Dfa} {token : String}

theorem mem_expected_iff {state : Nat} :
    token ∈ dfa.expected state ↔ ∃ next, dfa.consume state token = some next := by
  rw [expected, consume.eq_def]
  cases dfa.states[state]? with
  | none => simp
  | some entry =>
    show token ∈ entry.row.map Prod.fst ↔ ∃ next, entry.row.lookup token = some next
    rw [← Option.isSome_iff_exists, List.lookup_isSome_iff, List.mem_map]
    exact exists_congr fun move => and_congr_right fun _ => by rw [beq_iff_eq, eq_comm]

/-- The tokens of an automaton are those that some state can read. -/
theorem mem_tokens_iff :
    token ∈ dfa.tokens ↔ ∃ state next, dfa.consume state token = some next := by
  rw [tokens, Alphabet.mem_union]
  constructor
  · rintro ⟨row, hrow, htoken⟩
    obtain ⟨entry, hentry, rfl⟩ := List.mem_map.mp hrow
    obtain ⟨state, hlt, rfl⟩ := Array.mem_iff_getElem.mp (Array.mem_toList_iff.mp hentry)
    refine ⟨state, mem_expected_iff.mp ?_⟩
    rw [expected, Array.getElem?_eq_getElem hlt]
    exact htoken
  · rintro ⟨state, hnext⟩
    have htoken := mem_expected_iff.mpr hnext
    rw [expected] at htoken
    cases hstate : dfa.states[state]? with
    | none => simp [hstate] at htoken
    | some entry =>
      rw [hstate] at htoken
      have hentry := Array.mem_toList_iff.mpr (Array.mem_of_getElem? hstate)
      exact ⟨_, List.mem_map_of_mem hentry, htoken⟩

theorem mentions_iff_exists_consume :
    dfa.mentions token = true ↔ ∃ state next, dfa.consume state token = some next := by
  rw [mentions, Array.any_eq_true]
  constructor
  · rintro ⟨state, hlt, hsome⟩
    obtain ⟨next, hnext⟩ := Option.isSome_iff_exists.mp hsome
    refine ⟨state, next, ?_⟩
    rw [consume, Array.getElem?_eq_getElem hlt]
    exact hnext
  · rintro ⟨state, next, hconsume⟩
    obtain ⟨entry, hentry, hnext⟩ := Option.bind_eq_some_iff.mp hconsume
    obtain ⟨hlt, rfl⟩ := Array.getElem?_eq_some_iff.mp hentry
    exact ⟨state, hlt, by rw [hnext]; rfl⟩

end Dfa

/-! ### Tokens of a content model -/

namespace Nfa

/-- The labelled moves out of any state: those that were there, and moves on given tokens. -/
def MovesWithin (old new : Nfa) (tokens : List String) : Prop :=
  ∀ s, ∀ move ∈ new.movesFrom s, move ∈ old.movesFrom s ∨ move.1 ∈ tokens

variable {old new : Nfa} {tokens : List String}

theorem MovesWithin.congr {newer : Nfa} (h : MovesWithin old new tokens)
    (hsame : ∀ s, newer.movesFrom s = new.movesFrom s) : MovesWithin old newer tokens :=
  fun s move hmove => h s move (hsame s ▸ hmove)

@[simp] theorem movesFrom_enclose (nfa : Nfa) (outer inner : Fragment) (s : Nat) :
    (nfa.enclose outer inner).movesFrom s = nfa.movesFrom s := by
  rw [enclose, movesFrom_addSilent, movesFrom_addSilent]

theorem movesFrom_optional (nfa : Nfa) (inner : Fragment) (s : Nat) :
    (nfa.optional inner).2.movesFrom s = nfa.movesFrom s := by
  simp only [optional, movesFrom_addSilent, movesFrom_enclose, movesFrom_fresh]

theorem movesFrom_plus (nfa : Nfa) (inner : Fragment) (s : Nat) :
    (nfa.plus inner).2.movesFrom s = nfa.movesFrom s := by
  simp only [plus, movesFrom_addSilent, movesFrom_enclose, movesFrom_fresh]

theorem movesFrom_kleene (nfa : Nfa) (inner : Fragment) (s : Nat) :
    (nfa.kleene inner).2.movesFrom s = nfa.movesFrom s := by
  show ((nfa.plus inner).2.addSilent _ _).movesFrom s = _
  rw [movesFrom_addSilent, movesFrom_plus]

theorem movesFrom_append (nfa : Nfa) (fragments : List Fragment) (s : Nat) :
    (nfa.append fragments).2.movesFrom s = nfa.movesFrom s := by
  cases fragments with
  | nil => exact movesFrom_epsilon nfa s
  | cons first rest =>
    show (rest.foldl glue (first, nfa)).2.movesFrom s = _
    generalize hbuilt : (first, nfa) = built
    rw [show nfa = built.2 by rw [← hbuilt]]
    clear hbuilt
    induction rest generalizing built with
    | nil => rfl
    | cons next rest ih => rw [List.foldl_cons, ih, glue, movesFrom_addSilent]

theorem movesFrom_merge (nfa : Nfa) (fragments : List Fragment) (s : Nat) :
    (nfa.merge fragments).2.movesFrom s = nfa.movesFrom s := by
  have hfold : ∀ (outer : Fragment) (fragments : List Fragment) (nfa : Nfa),
      (fragments.foldl (fun nfa inner => nfa.enclose outer inner) nfa).movesFrom s
        = nfa.movesFrom s := by
    intro outer fragments
    induction fragments with
    | nil => exact fun _ => rfl
    | cons inner rest ih => exact fun nfa => by rw [List.foldl_cons, ih, movesFrom_enclose]
  simp only [merge, hfold]
  split
  · rw [movesFrom_addSilent, movesFrom_fresh]
  · rw [movesFrom_fresh]

theorem movesWithin_token (nfa : Nfa) (name : String) :
    MovesWithin nfa (nfa.token name).2 [name] := by
  intro s move hmove
  have hlt : nfa.fresh.1.start < nfa.fresh.2.states.size := by
    rw [size_fresh]
    exact Nat.lt_add_of_pos_right (by decide)
  replace hmove : move ∈ (nfa.fresh.2.addMove nfa.fresh.1.start name
      nfa.fresh.1.finish).movesFrom s :=
    hmove
  rw [movesFrom_addMove hlt, movesFrom_fresh] at hmove
  split at hmove
  · rcases List.mem_cons.mp hmove with rfl | hmove
    · exact Or.inr (List.mem_singleton_self _)
    · exact Or.inl hmove
  · exact Or.inl hmove

mutual

/-- Building adds only moves on the tokens of the content model. -/
theorem movesWithin_build (element : String) : ∀ (model : Model) {old new : Nfa}
    {fragment : Fragment}, build element model old = (.ok fragment, new) →
    MovesWithin old new model.occurrences
  | .token name, old, new, fragment, h => by
    obtain ⟨-, rfl⟩ := Prod.mk.inj h
    exact movesWithin_token old name
  | .sequence blocks, old, new, fragment, h => by
    obtain ⟨fragments, before, hblocks, hstep⟩ := continueWith_eq_ok h
    refine (movesWithin_buildAll element blocks hblocks).congr fun s => ?_
    rw [← movesFrom_append before fragments s, hstep]
  | .choice blocks, old, new, fragment, h => by
    obtain ⟨fragments, before, hblocks, hstep⟩ := continueWith_eq_ok h
    refine (movesWithin_buildAll element blocks hblocks).congr fun s => ?_
    rw [← movesFrom_merge before fragments s, hstep]
  | .optional block, old, new, fragment, h => by
    obtain ⟨inner, before, hblock, hstep⟩ := continueWith_eq_ok h
    refine (movesWithin_build element block hblock).congr fun s => ?_
    rw [← movesFrom_optional before inner s, hstep]
  | .kleene block, old, new, fragment, h => by
    obtain ⟨inner, before, hblock, hstep⟩ := continueWith_eq_ok h
    refine (movesWithin_build element block hblock).congr fun s => ?_
    rw [← movesFrom_kleene before inner s, hstep]
  | .plus block, old, new, fragment, h => by
    obtain ⟨inner, before, hblock, hstep⟩ := continueWith_eq_ok h
    refine (movesWithin_build element block hblock).congr fun s => ?_
    rw [← movesFrom_plus before inner s, hstep]
  | .interleave _, _, _, _, h => by simp [build] at h

theorem movesWithin_buildAll (element : String) : ∀ (blocks : List Model) {old new : Nfa}
    {fragments : List Fragment}, buildAll element blocks old = (.ok fragments, new) →
    MovesWithin old new (Model.occurrencesAll blocks)
  | [], old, new, fragments, h => by
    obtain ⟨-, rfl⟩ := Prod.mk.inj h
    exact fun s move hmove => Or.inl hmove
  | block :: rest, old, new, fragments, h => by
    rw [buildAll] at h
    split at h
    · rename_i first middle hfirst
      obtain ⟨others, before, hothers, hstep⟩ := continueWith_eq_ok h
      obtain ⟨-, rfl⟩ := Prod.mk.inj hstep
      intro s move hmove
      rw [Model.occurrencesAll, List.mem_append]
      rcases movesWithin_buildAll element rest hothers s move hmove with hmiddle | hrest
      · rcases movesWithin_build element block hfirst s move hmiddle with hold | hblock
        · exact Or.inl hold
        · exact Or.inr (Or.inl hblock)
      · exact Or.inr (Or.inr hrest)
    · simp at h

end

end Nfa

namespace Model

variable {model : Model} {element : String} {limits : Limits} {dfa : Dfa}

/-- In no state the automaton reads a token that the model does not mention. -/
theorem mem_occurrences_of_consume (h : model.toDfa element limits = .ok dfa) {state next : Nat}
    {token : String} (hconsume : dfa.consume state token = some next) :
    token ∈ model.occurrences := by
  obtain ⟨fragment, nfa, hbuild, hdfa⟩ := toDfa_eq_ok h
  obtain ⟨table, hsound, hall, rfl⟩ := Nfa.determinize_spec hdfa
  cases hset : table.sets[state]? with
  | none =>
    rw [Dfa.consume, SubsetTable.states_toDfa, hset] at hconsume
    cases hrow : table.rows[state]? <;> simp [hrow] at hconsume
  | some set =>
    rcases SubsetTable.consume_toDfa hsound hall hset token with ⟨hmem, -⟩ | ⟨-, hnone⟩
    · obtain ⟨move, hmove, rfl⟩ := List.mem_map.mp hmem
      obtain ⟨s, -, hmove⟩ := Nfa.mem_movesFromAll.mp hmove
      rcases Nfa.movesWithin_build element model hbuild s move hmove with hold | hmem
      · rw [Nfa.movesFrom_of_size_le (Nat.zero_le s)] at hold
        simp at hold
      · exact hmem
    · rw [hnone] at hconsume
      simp at hconsume

/-- A token of a word that is read is read in some state. -/
theorem exists_consume_of_mem {word : List String} {state last : Nat}
    (hrun : word.foldlM dfa.consume state = some last) {token : String} (hmem : token ∈ word) :
    ∃ state next, dfa.consume state token = some next := by
  induction word generalizing state with
  | nil => simp at hmem
  | cons first word ih =>
    rw [List.foldlM_cons] at hrun
    obtain ⟨next, hnext, hrest⟩ := Option.bind_eq_some_iff.mp hrun
    rcases List.mem_cons.mp hmem with rfl | hmem
    · exact ⟨state, next, hnext⟩
    · exact ih hrest hmem

/-- The automaton reads exactly the tokens that the model mentions. -/
theorem mentions_toDfa_iff (h : model.toDfa element limits = .ok dfa) (token : String) :
    dfa.mentions token = true ↔ token ∈ model.occurrences := by
  rw [Dfa.mentions_iff_exists_consume]
  constructor
  · rintro ⟨state, next, hconsume⟩
    exact mem_occurrences_of_consume h hconsume
  · intro hmem
    obtain ⟨word, hword, htoken⟩ := exists_mem_of_mem_occurrences model hmem
    rw [← language_toDfa h] at hword
    obtain ⟨last, hrun, -⟩ := hword
    exact exists_consume_of_mem hrun htoken

end Model

end RelaxSchema
