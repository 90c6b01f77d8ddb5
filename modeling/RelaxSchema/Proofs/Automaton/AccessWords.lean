import RelaxSchema.Proofs.Catalogue
import RelaxSchema.Proofs.Automaton.Tokens

/-!
# Access words

A state of a deterministic automaton has access words, which lead to it from the start. The least of
them, shorter words first and words of one length in lexicographic order, is its name.

* `Dfa.IsBreadthFirst.exists_isLeastAccess`, `Dfa.IsBreadthFirst.shortlex_of_lt`: if the states are
  numbered as a breadth-first search meets them, every state has a least access word, and these are
  in the order of the numbers;
* `Dfa.SameGraph.foldlM_consume_eq`: so there is only one such numbering;
* `Dfa.IsRenaming.rename_eq`: an automaton that differs by the numbers alone does not differ.

The idea is that of `exists_leadsTo_of_lt`: a word that leads to a state is preceded by words to all
states with smaller numbers. It follows from the last move of the word, by induction on the rest.
-/

namespace RelaxSchema

open List

/-! ### The order of words -/

section Words

variable {left right middle : List String}

theorem shortlex_trans (h : Shortlex (· < ·) left middle) (h' : Shortlex (· < ·) middle right) :
    Shortlex (· < ·) left right := by
  rcases shortlex_def.mp h with hlt | ⟨heq, hlex⟩
  · rcases shortlex_def.mp h' with hlt' | ⟨heq', -⟩
    · exact .of_length_lt (hlt.trans hlt')
    · exact .of_length_lt (heq' ▸ hlt)
  · rcases shortlex_def.mp h' with hlt' | ⟨heq', hlex'⟩
    · exact .of_length_lt (heq ▸ hlt')
    · have hle : left < right := lt_trans hlex hlex'
      exact .of_lex (heq.trans heq') hle

/-- Longer words keep the order of what they continue. -/
theorem shortlex_concat (h : Shortlex (· < ·) left right) (token token' : String) :
    Shortlex (· < ·) (left ++ [token]) (right ++ [token']) := by
  rcases shortlex_def.mp h with hlt | ⟨heq, hlex⟩
  · refine .of_length_lt ?_
    rw [length_append, length_append, length_singleton, length_singleton]
    exact Nat.add_lt_add_right hlt 1
  · refine .of_lex ?_ (lex_append heq hlex _ _)
    rw [length_append, length_append, length_singleton, length_singleton, heq]

theorem shortlex_concat_of_lt {token token' : String} (h : token < token') :
    Shortlex (· < ·) (left ++ [token]) (left ++ [token']) :=
  Shortlex.append_left ((shortlex_singleton_iff _ _).mpr h) left

theorem not_shortlex_self : ¬ Shortlex (· < ·) left left := fun h => asymm h h

end Words

namespace Dfa

variable {dfa dfa' : Dfa} {word : List String} {state : Nat}

/-! ### Words that lead to states -/

/-- A list of tokens leads from the start to a state. -/
def LeadsTo (dfa : Dfa) (word : List String) (state : Nat) : Prop :=
  word.foldlM dfa.consume 0 = some state

theorem LeadsTo.unique {other : Nat} (h : dfa.LeadsTo word state) (h' : dfa.LeadsTo word other) :
    state = other :=
  Option.some.inj (h.symm.trans h')

theorem leadsTo_concat_iff {token : String} {next : Nat} : dfa.LeadsTo (word ++ [token]) next ↔
    ∃ state, dfa.LeadsTo word state ∧ dfa.consume state token = some next := by
  unfold LeadsTo
  rw [foldlM_append, Option.bind_eq_bind, Option.bind_eq_some_iff]
  simp

theorem LeadsTo.foldlM_concat (h : dfa.LeadsTo word state) (token : String) :
    (word ++ [token]).foldlM dfa.consume 0 = dfa.consume state token := by
  rw [foldlM_append, h]
  show (dfa.consume state token >>= fun next => [].foldlM dfa.consume next) = _
  cases dfa.consume state token <;> rfl

theorem LeadsTo.mem_language_iff (h : dfa.LeadsTo word state) :
    word ∈ dfa.language ↔ dfa.isFinished state = true := by
  constructor
  · rintro ⟨other, hother, hfinished⟩
    exact h.unique hother ▸ hfinished
  · exact fun hfinished => ⟨state, h, hfinished⟩

/-- The least of the words that lead to a state. -/
structure IsLeastAccess (dfa : Dfa) (word : List String) (state : Nat) : Prop where
  /-- It leads to the state. -/
  leadsTo : dfa.LeadsTo word state
  /-- It comes before all others that do. -/
  least : ∀ other, dfa.LeadsTo other state → other = word ∨ Shortlex (· < ·) word other

theorem IsLeastAccess.unique {word' : List String} (h : dfa.IsLeastAccess word state)
    (h' : dfa.IsLeastAccess word' state) : word = word' := by
  rcases h.least word' h'.leadsTo with rfl | hlt
  · rfl
  · rcases h'.least word h.leadsTo with rfl | hlt'
    · rfl
    · exact absurd hlt' (asymm hlt)

/-- The states are numbered as a breadth-first search meets them that takes the tokens of a state in
ascending order. -/
structure IsBreadthFirst (dfa : Dfa) : Prop where
  /-- There is a start. -/
  size_pos : 0 < dfa.states.size
  /-- The tokens of a row stand in ascending order. -/
  ordered : ∀ entry ∈ dfa.states, Alphabet.Ordered (entry.row.map Prod.fst)
  /-- Moves lead to states. -/
  next_lt : ∀ {state token next}, dfa.consume state token = some next → next < dfa.states.size
  /-- A move from a state with a smaller number leads to any state but the start. -/
  entered : ∀ {next}, 0 < next → next < dfa.states.size →
    ∃ state < next, ∃ token, dfa.consume state token = some next
  /-- The states below the target of a move are entered by moves before it. -/
  entered_before : ∀ {state token next}, dfa.consume state token = some next →
    ∀ other, 0 < other → other < next → ∃ state' token', dfa.consume state' token' = some other ∧
      (state' < state ∨ state' = state ∧ token' < token)

namespace IsBreadthFirst

theorem lt_size_of_leadsTo (h : dfa.IsBreadthFirst) (hword : dfa.LeadsTo word state) :
    state < dfa.states.size := by
  cases word using reverseRecOn with
  | nil =>
    obtain rfl := Option.some.inj hword
    exact h.size_pos
  | append_singleton word token =>
    obtain ⟨before, -, hnext⟩ := leadsTo_concat_iff.mp hword
    exact h.next_lt hnext

/-- **A word to a state is preceded by words to all states below it.** -/
theorem exists_leadsTo_of_lt (h : dfa.IsBreadthFirst) (hword : dfa.LeadsTo word state) {other : Nat}
    (hlt : other < state) :
    ∃ earlier, dfa.LeadsTo earlier other ∧ Shortlex (· < ·) earlier word := by
  -- By induction on the word from its end, for all states below at once.
  induction word using reverseRecOn generalizing state other with
  | nil =>
    obtain rfl := Option.some.inj hword
    exact absurd hlt (Nat.not_lt_zero other)
  | append_singleton word token ih =>
    obtain ⟨before, hbefore, hnext⟩ := leadsTo_concat_iff.mp hword
    rcases Nat.eq_zero_or_pos other with rfl | hpos
    · exact ⟨[], rfl, .of_length_lt (by simp)⟩
    · obtain ⟨source, token', hmove, hsource⟩ := h.entered_before hnext other hpos hlt
      rcases hsource with hsource | ⟨rfl, htoken⟩
      · obtain ⟨earlier, hearlier, hshort⟩ := ih hbefore hsource
        exact ⟨earlier ++ [token'], leadsTo_concat_iff.mpr ⟨source, hearlier, hmove⟩,
          shortlex_concat hshort token' token⟩
      · exact ⟨word ++ [token'], leadsTo_concat_iff.mpr ⟨source, hbefore, hmove⟩,
          shortlex_concat_of_lt htoken⟩

/-- The least access words are in the order of the numbers. -/
theorem shortlex_of_lt (h : dfa.IsBreadthFirst) {word' : List String} {state' : Nat}
    (hword : dfa.IsLeastAccess word state) (hword' : dfa.IsLeastAccess word' state')
    (hlt : state < state') : Shortlex (· < ·) word word' := by
  obtain ⟨earlier, hearlier, hshort⟩ := h.exists_leadsTo_of_lt hword'.leadsTo hlt
  rcases hword.least earlier hearlier with rfl | hleast
  · exact hshort
  · exact shortlex_trans hleast hshort

/-- The first move that leads to a state: no other one has a smaller source, or the same source and
a smaller token. -/
theorem exists_first_move (h : dfa.IsBreadthFirst) (hpos : 0 < state)
    (hlt : state < dfa.states.size) :
    ∃ source < state, ∃ token, dfa.consume source token = some state ∧
      ∀ source' token', dfa.consume source' token' = some state →
        source < source' ∨ source = source' ∧ token ≤ token' := by
  classical
  have hexists : ∃ source, ∃ token, dfa.consume source token = some state := by
    obtain ⟨source, -, hmove⟩ := h.entered hpos hlt
    exact ⟨source, hmove⟩
  have hfirst : Nat.find hexists < state := by
    obtain ⟨source, hsource, hmove⟩ := h.entered hpos hlt
    exact (Nat.find_min' hexists hmove).trans_lt hsource
  -- Only finitely many tokens can be read in the first source, so there is a least one that leads
  -- on.
  have hfinite : {token | dfa.consume (Nat.find hexists) token = some state}.Finite := by
    refine (dfa.expected (Nat.find hexists)).finite_toSet.subset fun token htoken => ?_
    exact mem_expected_iff.mpr ⟨state, htoken⟩
  obtain ⟨token, htoken, hleast⟩ := Set.exists_min_image _ id hfinite (Nat.find_spec hexists)
  refine ⟨Nat.find hexists, hfirst, token, htoken, fun source' token' hmove => ?_⟩
  rcases (Nat.find_min' hexists ⟨token', hmove⟩).lt_or_eq with hless | heq
  · exact Or.inl hless
  · exact Or.inr ⟨heq, hleast token' (heq ▸ hmove)⟩

/-- **Every state has a least access word.** -/
theorem exists_isLeastAccess (h : dfa.IsBreadthFirst) (hlt : state < dfa.states.size) :
    ∃ word, dfa.IsLeastAccess word state := by
  induction state using Nat.strong_induction_on with
  | _ state ih =>
    rcases Nat.eq_zero_or_pos state with rfl | hpos
    · exact ⟨[], rfl, fun other _ => (shortlex_nil_or_eq_nil other).symm⟩
    obtain ⟨source, hsource, token, hmove, hfirst⟩ := h.exists_first_move hpos hlt
    obtain ⟨word, hword⟩ := ih source hsource (hsource.trans hlt)
    refine ⟨word ++ [token], leadsTo_concat_iff.mpr ⟨source, hword.leadsTo, hmove⟩,
      fun other hother => ?_⟩
    cases other using reverseRecOn with
    | nil =>
      obtain rfl := Option.some.inj hother
      exact absurd hpos (lt_irrefl _)
    | append_singleton other token' =>
      obtain ⟨source', hbefore, hnext⟩ := leadsTo_concat_iff.mp hother
      rcases hfirst source' token' hnext with hless | ⟨rfl, htoken⟩
      · -- The other word comes from a later source, which has a word to this source before it.
        obtain ⟨earlier, hearlier, hshort⟩ := h.exists_leadsTo_of_lt hbefore hless
        rcases hword.least earlier hearlier with rfl | hleast
        · exact Or.inr (shortlex_concat hshort token token')
        · exact Or.inr (shortlex_concat (shortlex_trans hleast hshort) token token')
      · rcases hword.least other hbefore with rfl | hleast
        · rcases htoken.lt_or_eq with hless | rfl
          · exact Or.inr (shortlex_concat_of_lt hless)
          · exact Or.inl rfl
        · exact Or.inr (shortlex_concat hleast token token')

end IsBreadthFirst

/-! ### Automata with the same graph -/

/-- Rows that lead to the same states are equal. -/
theorem row_ext {row row' : List (String × Nat)} (h : Alphabet.Ordered (row.map Prod.fst))
    (h' : Alphabet.Ordered (row'.map Prod.fst))
    (hlookup : ∀ token, row.lookup token = row'.lookup token) : row = row' := by
  have htokens : row.map Prod.fst = row'.map Prod.fst := by
    refine Alphabet.ext h h' fun token => ?_
    have hmem : ∀ row : List (String × Nat), token ∈ row.map Prod.fst ↔
        (row.lookup token).isSome = true := by
      intro row
      rw [lookup_isSome_iff, mem_map]
      exact exists_congr fun move => and_congr_right fun _ => by rw [beq_iff_eq, eq_comm]
    rw [hmem, hmem, hlookup]
  have hmap : ∀ row : List (String × Nat), Alphabet.Ordered (row.map Prod.fst) →
      row = (row.map Prod.fst).map fun token => (token, (row.lookup token).getD 0) := by
    intro row hrow
    have hnodup : (row.map Prod.fst).Nodup := hrow.imp ne_of_lt
    rw [map_map]
    refine (map_id row).symm.trans (map_congr_left fun move hmove => ?_)
    have hfound := (lookup_eq_some_iff_mem hnodup).mpr hmove
    rw [Function.comp_apply, hfound]
    rfl
  rw [hmap row h, hmap row' h', htokens]
  exact map_congr_left fun token _ => by rw [hlookup]

theorem state_ext : ∀ {first second : DfaState}, first.row = second.row →
    first.finished = second.finished → first = second
  | ⟨_, _⟩, ⟨_, _⟩, rfl, rfl => rfl

/-- Lists of tokens lead to one state of either automaton or of neither, and nowhere in both or in
neither. -/
structure SameGraph (dfa dfa' : Dfa) : Prop where
  /-- The same lists of tokens lead to one state. -/
  together : ∀ word word' : List String, word.foldlM dfa.consume 0 = word'.foldlM dfa.consume 0 ↔
    word.foldlM dfa'.consume 0 = word'.foldlM dfa'.consume 0
  /-- The same lists of tokens lead nowhere. -/
  nowhere : ∀ word : List String, word.foldlM dfa.consume 0 = none ↔
    word.foldlM dfa'.consume 0 = none

namespace SameGraph

theorem symm (h : dfa.SameGraph dfa') : dfa'.SameGraph dfa where
  together word word' := (h.together word word').symm
  nowhere word := (h.nowhere word).symm

theorem exists_leadsTo (h : dfa.SameGraph dfa') (hword : dfa.LeadsTo word state) :
    ∃ state', dfa'.LeadsTo word state' := by
  refine Option.ne_none_iff_exists'.mp fun hnone => ?_
  exact Option.some_ne_none state (hword.symm.trans ((h.nowhere word).mpr hnone))

/-- The least access words are the same. -/
theorem exists_isLeastAccess (h : dfa.SameGraph dfa') (hword : dfa.IsLeastAccess word state) :
    ∃ state', dfa'.IsLeastAccess word state' := by
  obtain ⟨state', hstate'⟩ := h.exists_leadsTo hword.leadsTo
  refine ⟨state', hstate', fun other hother => hword.least other ?_⟩
  exact ((h.together other word).mpr (hother.trans hstate'.symm)).trans hword.leadsTo

/-- A least access word has the same number in both automata, if this is so for all smaller
numbers. -/
theorem isLeastAccess_of_forall_lt (h : dfa.SameGraph dfa') (hdfa : dfa.IsBreadthFirst)
    (hdfa' : dfa'.IsBreadthFirst)
    (hbelow : ∀ other < state, ∀ word, dfa.IsLeastAccess word other ↔ dfa'.IsLeastAccess word other)
    (hword : dfa.IsLeastAccess word state) : dfa'.IsLeastAccess word state := by
  obtain ⟨state', hstate'⟩ := h.exists_isLeastAccess hword
  rcases lt_trichotomy state' state with hlt | rfl | hgt
  · exact absurd (((hbelow state' hlt word).mpr hstate').leadsTo.unique hword.leadsTo) hlt.ne
  · exact hstate'
  -- The number would be skipped in the other automaton: the least access word of that state there
  -- comes before this word, so it has a smaller number here, and the same number there.
  · exfalso
    obtain ⟨word', hword'⟩ :=
      hdfa'.exists_isLeastAccess (hgt.trans (hdfa'.lt_size_of_leadsTo hstate'.leadsTo))
    have hshort := hdfa'.shortlex_of_lt hword' hstate' hgt
    obtain ⟨other, hother⟩ := h.symm.exists_isLeastAccess hword'
    rcases lt_trichotomy other state with hlt | rfl | hlt
    · exact hlt.ne (((hbelow other hlt word').mp hother).leadsTo.unique hword'.leadsTo)
    · exact not_shortlex_self (hother.unique hword ▸ hshort)
    · exact asymm hshort (hdfa.shortlex_of_lt hword hother hlt)

theorem isLeastAccess_iff (h : dfa.SameGraph dfa') (hdfa : dfa.IsBreadthFirst)
    (hdfa' : dfa'.IsBreadthFirst) (word : List String) (state : Nat) :
    dfa.IsLeastAccess word state ↔ dfa'.IsLeastAccess word state := by
  induction state using Nat.strong_induction_on generalizing word with
  | _ state ih =>
    exact ⟨h.isLeastAccess_of_forall_lt hdfa hdfa' ih,
      h.symm.isLeastAccess_of_forall_lt hdfa' hdfa fun other hlt word => (ih other hlt word).symm⟩

/-- **There is only one breadth-first numbering**: lists of tokens lead to the same numbers. -/
theorem foldlM_consume_eq (h : dfa.SameGraph dfa') (hdfa : dfa.IsBreadthFirst)
    (hdfa' : dfa'.IsBreadthFirst) (word : List String) :
    word.foldlM dfa.consume 0 = word.foldlM dfa'.consume 0 := by
  cases hword : word.foldlM dfa.consume 0 with
  | none => exact ((h.nowhere word).mp hword).symm
  | some state =>
    obtain ⟨least, hleast⟩ := hdfa.exists_isLeastAccess (hdfa.lt_size_of_leadsTo hword)
    have hsame := (h.together word least).mp (hword.trans hleast.leadsTo.symm)
    rw [hsame]
    exact ((h.isLeastAccess_iff hdfa hdfa' least state).mp hleast).leadsTo.symm

theorem size_le (h : dfa.SameGraph dfa') (hdfa : dfa.IsBreadthFirst) (hdfa' : dfa'.IsBreadthFirst) :
    dfa.states.size ≤ dfa'.states.size := by
  by_contra hlt
  obtain ⟨word, hword⟩ := hdfa.exists_isLeastAccess (not_le.mp hlt)
  have hword' : dfa'.LeadsTo word dfa'.states.size :=
    (h.foldlM_consume_eq hdfa hdfa' word).symm.trans hword.leadsTo
  exact lt_irrefl _ (hdfa'.lt_size_of_leadsTo hword')

theorem consume_eq (h : dfa.SameGraph dfa') (hdfa : dfa.IsBreadthFirst)
    (hdfa' : dfa'.IsBreadthFirst) (hlt : state < dfa.states.size) (token : String) :
    dfa.consume state token = dfa'.consume state token := by
  obtain ⟨word, hword⟩ := hdfa.exists_isLeastAccess hlt
  have hword' : dfa'.LeadsTo word state :=
    (h.foldlM_consume_eq hdfa hdfa' word).symm.trans hword.leadsTo
  rw [← hword.leadsTo.foldlM_concat, ← hword'.foldlM_concat]
  exact h.foldlM_consume_eq hdfa hdfa' (word ++ [token])

theorem size_eq (h : dfa.SameGraph dfa') (hdfa : dfa.IsBreadthFirst) (hdfa' : dfa'.IsBreadthFirst) :
    dfa.states.size = dfa'.states.size :=
  le_antisymm (h.size_le hdfa hdfa') (h.symm.size_le hdfa' hdfa)

theorem row_eq (h : dfa.SameGraph dfa') (hdfa : dfa.IsBreadthFirst) (hdfa' : dfa'.IsBreadthFirst)
    (hlt : state < dfa.states.size) (hlt' : state < dfa'.states.size) :
    dfa.states[state].row = dfa'.states[state].row := by
  refine row_ext (hdfa.ordered _ (Array.getElem_mem hlt)) (hdfa'.ordered _ (Array.getElem_mem hlt'))
    fun token => ?_
  have hconsume := h.consume_eq hdfa hdfa' hlt token
  rwa [consume, consume, Array.getElem?_eq_getElem hlt, Array.getElem?_eq_getElem hlt'] at hconsume

/-- **Automata with the same graph have the same rows.** -/
theorem map_row_eq (h : dfa.SameGraph dfa') (hdfa : dfa.IsBreadthFirst)
    (hdfa' : dfa'.IsBreadthFirst) : dfa.states.map DfaState.row = dfa'.states.map DfaState.row := by
  refine Array.ext ?_ fun state hlt hlt' => ?_
  · rw [Array.size_map, Array.size_map, h.size_eq hdfa hdfa']
  · rw [Array.getElem_map, Array.getElem_map]
    exact h.row_eq hdfa hdfa' (by simpa using hlt) (by simpa using hlt')

/-- **Automata with the same graph that read the same are equal.** -/
theorem eq (h : dfa.SameGraph dfa') (hdfa : dfa.IsBreadthFirst) (hdfa' : dfa'.IsBreadthFirst)
    (hlanguage : dfa.language = dfa'.language) : dfa = dfa' := by
  have hstates : dfa.states = dfa'.states := by
    refine Array.ext (h.size_eq hdfa hdfa') fun state hlt hlt' => ?_
    obtain ⟨word, hword⟩ := hdfa.exists_isLeastAccess hlt
    have hword' : dfa'.LeadsTo word state :=
      (h.foldlM_consume_eq hdfa hdfa' word).symm.trans hword.leadsTo
    have hfinished : dfa.isFinished state = dfa'.isFinished state := by
      rw [Bool.eq_iff_iff, ← hword.leadsTo.mem_language_iff, ← hword'.mem_language_iff, hlanguage]
    rw [isFinished, isFinished, Array.getElem?_eq_getElem hlt,
      Array.getElem?_eq_getElem hlt'] at hfinished
    exact state_ext (h.row_eq hdfa hdfa' hlt hlt') hfinished
  cases dfa
  cases dfa'
  exact congrArg Dfa.mk hstates

end SameGraph

/-! ### Automata with other numbers -/

/-- The second automaton has the moves of the first, with other numbers for the states except the
start. -/
structure IsRenaming (dfa dfa' : Dfa) (rename : Nat → Nat) : Prop where
  /-- The start is the start. -/
  start : rename 0 = 0
  /-- No two states get the same number. -/
  injective : ∀ state < dfa.states.size, ∀ other < dfa.states.size, rename state = rename other →
    state = other
  /-- The moves are the same. -/
  consume : ∀ state < dfa.states.size, ∀ token,
    dfa'.consume (rename state) token = (dfa.consume state token).map rename

namespace IsRenaming

variable {rename : Nat → Nat}

theorem foldlM_consume (h : dfa.IsRenaming dfa' rename) (hdfa : dfa.IsBreadthFirst)
    (word : List String) : word.foldlM dfa'.consume 0 = (word.foldlM dfa.consume 0).map rename := by
  induction word using reverseRecOn with
  | nil => exact congrArg some h.start.symm
  | append_singleton word token ih =>
    cases hword : word.foldlM dfa.consume 0 with
    | none =>
      rw [hword] at ih
      rw [foldlM_append, foldlM_append, hword, ih]
      rfl
    | some state =>
      have hleads : dfa.LeadsTo word state := hword
      have hleads' : dfa'.LeadsTo word (rename state) :=
        ih.trans (congrArg (Option.map rename) hword)
      rw [hleads.foldlM_concat, hleads'.foldlM_concat]
      exact h.consume state (hdfa.lt_size_of_leadsTo hleads) token

theorem sameGraph (h : dfa.IsRenaming dfa' rename) (hdfa : dfa.IsBreadthFirst) :
    dfa.SameGraph dfa' where
  together word word' := by
    rw [h.foldlM_consume hdfa, h.foldlM_consume hdfa]
    constructor
    · exact fun hsame => congrArg _ hsame
    · cases hword : word.foldlM dfa.consume 0 with
      | none => exact fun hsame => (Option.map_eq_none_iff.mp hsame.symm).symm
      | some state =>
        intro hsame
        obtain ⟨other, hother, heq⟩ := Option.map_eq_some_iff.mp hsame.symm
        rw [hother]
        exact congrArg some (h.injective _ (hdfa.lt_size_of_leadsTo hword) _
          (hdfa.lt_size_of_leadsTo hother) heq.symm)
  nowhere word := by rw [h.foldlM_consume hdfa, Option.map_eq_none_iff]

/-- **Breadth-first numberings cannot be renamed.** -/
theorem rename_eq (h : dfa.IsRenaming dfa' rename) (hdfa : dfa.IsBreadthFirst)
    (hdfa' : dfa'.IsBreadthFirst) (hlt : state < dfa.states.size) : rename state = state := by
  obtain ⟨word, hword⟩ := hdfa.exists_isLeastAccess hlt
  have hsame := (h.sameGraph hdfa).foldlM_consume_eq hdfa hdfa' word
  rw [h.foldlM_consume hdfa, hword.leadsTo] at hsame
  exact (Option.some.inj hsame).symm

end IsRenaming

end Dfa

end RelaxSchema
