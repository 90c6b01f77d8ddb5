import RelaxSchema.Automaton.Subset
import RelaxSchema.Proofs.Content.Language

/-!
# Paths of a nondeterministic automaton

`Nfa.words nfa s t` is the language of the paths from state `s` to state `t`. Adding a silent move
changes all these languages by one equation (`words_addSilent`): a path uses the new move any number
of times, or not at all. A state that no move enters (`IsSource`) or leaves (`IsSink`) makes most
terms of that equation trivial, which is how the fragments of `RelaxSchema.Automaton.Nfa` are
computed with.
-/

namespace RelaxSchema.Nfa

open Computability

/-! ### Moves out of a state -/

@[simp] theorem size_addSilent (nfa : Nfa) (source target : Nat) :
    (nfa.addSilent source target).states.size = nfa.states.size := by
  simp [addSilent]

@[simp] theorem size_addMove (nfa : Nfa) (source : Nat) (token : String) (target : Nat) :
    (nfa.addMove source token target).states.size = nfa.states.size := by
  simp [addMove]

@[simp] theorem size_fresh (nfa : Nfa) : nfa.fresh.2.states.size = nfa.states.size + 2 := by
  simp [fresh]

@[simp] theorem size_epsilon (nfa : Nfa) : nfa.epsilon.2.states.size = nfa.states.size + 1 := by
  simp [epsilon]

theorem silentFrom_of_size_le {nfa : Nfa} {s : Nat} (h : nfa.states.size ≤ s) :
    nfa.silentFrom s = [] := by
  rw [silentFrom, Array.getElem?_eq_none h]; rfl

theorem movesFrom_of_size_le {nfa : Nfa} {s : Nat} (h : nfa.states.size ≤ s) :
    nfa.movesFrom s = [] := by
  rw [movesFrom, Array.getElem?_eq_none h]; rfl

theorem silentFrom_addSilent {nfa : Nfa} {source : Nat} (h : source < nfa.states.size)
    (target s : Nat) :
    (nfa.addSilent source target).silentFrom s
      = if s = source then target :: nfa.silentFrom s else nfa.silentFrom s := by
  unfold silentFrom addSilent
  rw [Array.getElem?_modify]
  by_cases hs : s = source
  · subst hs
    simp [h]
  · simp [hs, Ne.symm hs]

@[simp] theorem movesFrom_addSilent (nfa : Nfa) (source target s : Nat) :
    (nfa.addSilent source target).movesFrom s = nfa.movesFrom s := by
  unfold movesFrom addSilent
  rw [Array.getElem?_modify]
  by_cases hs : source = s
  · subst hs
    cases nfa.states[source]? <;> simp
  · simp [hs]

@[simp] theorem silentFrom_addMove (nfa : Nfa) (source : Nat) (token : String) (target s : Nat) :
    (nfa.addMove source token target).silentFrom s = nfa.silentFrom s := by
  unfold silentFrom addMove
  rw [Array.getElem?_modify]
  by_cases hs : source = s
  · subst hs
    cases nfa.states[source]? <;> simp
  · simp [hs]

theorem movesFrom_addMove {nfa : Nfa} {source : Nat} (h : source < nfa.states.size) (token : String)
    (target s : Nat) :
    (nfa.addMove source token target).movesFrom s
      = if s = source then (token, target) :: nfa.movesFrom s else nfa.movesFrom s := by
  unfold movesFrom addMove
  rw [Array.getElem?_modify]
  by_cases hs : s = source
  · subst hs
    simp [h]
  · simp [hs, Ne.symm hs]

/-- Two tables that differ by states without moves have the same moves. -/
theorem getElem?_push_empty (states : Array NfaState) (s : Nat) {β : Type} (f : NfaState → List β)
    (hf : f {} = []) : ((states.push {})[s]?.map f).getD [] = (states[s]?.map f).getD [] := by
  rw [Array.getElem?_push]
  split
  · rename_i hs
    rw [Array.getElem?_eq_none (Nat.le_of_eq hs.symm)]
    simp [hf]
  · rfl

@[simp] theorem silentFrom_fresh (nfa : Nfa) (s : Nat) :
    nfa.fresh.2.silentFrom s = nfa.silentFrom s := by
  unfold silentFrom fresh
  rw [getElem?_push_empty _ _ _ rfl, getElem?_push_empty _ _ _ rfl]

@[simp] theorem movesFrom_fresh (nfa : Nfa) (s : Nat) :
    nfa.fresh.2.movesFrom s = nfa.movesFrom s := by
  unfold movesFrom fresh
  rw [getElem?_push_empty _ _ _ rfl, getElem?_push_empty _ _ _ rfl]

@[simp] theorem silentFrom_epsilon (nfa : Nfa) (s : Nat) :
    nfa.epsilon.2.silentFrom s = nfa.silentFrom s := by
  unfold silentFrom epsilon
  rw [getElem?_push_empty _ _ _ rfl]

@[simp] theorem movesFrom_epsilon (nfa : Nfa) (s : Nat) :
    nfa.epsilon.2.movesFrom s = nfa.movesFrom s := by
  unfold movesFrom epsilon
  rw [getElem?_push_empty _ _ _ rfl]

/-! ### Paths -/

/-- A path between two states, with the tokens that it reads. -/
inductive Path (nfa : Nfa) : Nat → List String → Nat → Prop
  /-- The path that stays. -/
  | done (s : Nat) : Path nfa s [] s
  /-- A silent move and a path behind it. -/
  | silent {s t u : Nat} {word : List String} :
      t ∈ nfa.silentFrom s → Path nfa t word u → Path nfa s word u
  /-- A labelled move and a path behind it. -/
  | read {s t u : Nat} {token : String} {word : List String} :
      (token, t) ∈ nfa.movesFrom s → Path nfa t word u → Path nfa s (token :: word) u

/-- The language of the paths between two states. -/
def words (nfa : Nfa) (s t : Nat) : Language String := {word | nfa.Path s word t}

variable {nfa : Nfa}

theorem Path.append {s t u : Nat} {left right : List String} (h : nfa.Path s left t)
    (h' : nfa.Path t right u) : nfa.Path s (left ++ right) u := by
  induction h with
  | done => exact h'
  | silent hstep _ ih => exact .silent hstep (ih h')
  | read hstep _ ih => exact .read hstep (ih h')

theorem nil_mem_words (s : Nat) : [] ∈ nfa.words s s := .done s

theorem words_mul_words_le (s t u : Nat) : nfa.words s t * nfa.words t u ≤ nfa.words s u := by
  rintro word ⟨left, hleft, right, hright, rfl⟩
  exact Path.append hleft hright

theorem words_kstar_le (s : Nat) : (nfa.words s s)∗ ≤ nfa.words s s := by
  refine kstar_le_of_mul_le_left ?_ (words_mul_words_le s s s)
  rintro word rfl
  exact .done s

/-- The moves of a table are moves of another. -/
structure IsWithin (nfa nfa' : Nfa) : Prop where
  /-- The silent moves are there. -/
  silent : ∀ s, ∀ t ∈ nfa.silentFrom s, t ∈ nfa'.silentFrom s
  /-- The labelled moves are there. -/
  moves : ∀ s, ∀ move ∈ nfa.movesFrom s, move ∈ nfa'.movesFrom s

theorem IsWithin.refl (nfa : Nfa) : IsWithin nfa nfa := ⟨fun _ _ h => h, fun _ _ h => h⟩

theorem IsWithin.trans {nfa' nfa'' : Nfa} (h : IsWithin nfa nfa') (h' : IsWithin nfa' nfa'') :
    IsWithin nfa nfa'' :=
  ⟨fun s t ht => h'.silent s t (h.silent s t ht), fun s move hmove =>
    h'.moves s move (h.moves s move hmove)⟩

/-- More moves have more paths. -/
theorem Path.mono {new : Nfa} {s t : Nat} {word : List String} (h : nfa.Path s word t)
    (hwithin : IsWithin nfa new) : new.Path s word t := by
  induction h with
  | done => exact .done _
  | silent hstep _ ih => exact .silent (hwithin.silent _ _ hstep) ih
  | read hstep _ ih => exact .read (hwithin.moves _ _ hstep) ih

theorem isWithin_addSilent {source : Nat} (hsource : source < nfa.states.size) (target : Nat) :
    IsWithin nfa (nfa.addSilent source target) := by
  refine ⟨fun s t ht => ?_, fun s move hmove => ?_⟩
  · rw [silentFrom_addSilent hsource]
    split
    · exact List.mem_cons_of_mem _ ht
    · exact ht
  · rwa [movesFrom_addSilent]

theorem isWithin_fresh (nfa : Nfa) : IsWithin nfa nfa.fresh.2 :=
  ⟨fun s t ht => by rwa [silentFrom_fresh], fun s move hmove => by rwa [movesFrom_fresh]⟩

theorem words_le_words_addSilent {source : Nat} (hsource : source < nfa.states.size)
    (target s t : Nat) : nfa.words s t ≤ (nfa.addSilent source target).words s t :=
  fun _ h => Path.mono h (isWithin_addSilent hsource target)

/-- The paths that take a silent move from `source` to `target` any number of times. -/
def detours (nfa : Nfa) (source target s t : Nat) : Language String :=
  nfa.words s t + nfa.words s source * (nfa.words target source)∗ * nfa.words target t

theorem words_mul_detours_le (source target s t u : Nat) :
    nfa.words s u * nfa.detours source target u t ≤ nfa.detours source target s t := by
  unfold detours
  rw [mul_add, ← mul_assoc, ← mul_assoc]
  gcongr
  · exact words_mul_words_le s u t
  · exact words_mul_words_le s u source

/-- Taking the move leads to a path of the same kind. -/
theorem detours_target_le (source target t : Nat) :
    nfa.detours source target target t ≤ nfa.detours source target source t := by
  have hone : 1 ≤ nfa.words source source := by
    rintro word rfl
    exact .done source
  have hloop : nfa.detours source target target t = (nfa.words target source)∗ *
      nfa.words target t := by
    unfold detours
    rw [← one_add_mul, one_add_mul_kstar]
  rw [hloop]
  calc (nfa.words target source)∗ * nfa.words target t
      = 1 * (nfa.words target source)∗ * nfa.words target t := by rw [one_mul]
    _ ≤ nfa.words source source * (nfa.words target source)∗ * nfa.words target t := by gcongr
    _ ≤ nfa.detours source target source t := le_add_left le_rfl

/-- **The paths after one more silent move**: those that were there, and those that take the new
move once and then any number of times again. -/
theorem words_addSilent {source : Nat} (hsource : source < nfa.states.size) (target s t : Nat) :
    (nfa.addSilent source target).words s t = nfa.detours source target s t := by
  set new := nfa.addSilent source target with hnew
  have hle : ∀ s t, nfa.words s t ≤ new.words s t := words_le_words_addSilent hsource target
  apply le_antisymm
  · -- By induction on the path: what the rest of it reads is known, and one move goes before.
    intro word h
    induction h with
    | done s => exact Or.inl (.done s)
    | @silent s u t word hstep _ ih =>
      rw [hnew, silentFrom_addSilent hsource] at hstep
      have hold : u ∈ nfa.silentFrom s → word ∈ nfa.detours source target s t := fun hu =>
        words_mul_detours_le _ _ _ _ _ ⟨[], .silent hu (.done u), word, ih, rfl⟩
      split at hstep
      · rename_i hs
        rcases List.mem_cons.mp hstep with hu | hu
        · -- The first move is the new one.
          rw [hs]
          exact detours_target_le _ _ _ (hu ▸ ih)
        · exact hold hu
      · exact hold hstep
    | @read s u t token word hstep _ ih =>
      rw [hnew, movesFrom_addSilent] at hstep
      exact words_mul_detours_le _ _ _ _ _ ⟨[token], .read hstep (.done u), word, ih, rfl⟩
  · have hmove : 1 ≤ new.words source target := by
      rintro word rfl
      refine .silent ?_ (.done target)
      rw [hnew, silentFrom_addSilent hsource, if_pos rfl]
      exact List.mem_cons_self
    -- Each way back from the target is closed by the new move.
    have hloop : nfa.words target source ≤ new.words target target :=
      calc nfa.words target source = nfa.words target source * 1 := (mul_one _).symm
        _ ≤ new.words target source * new.words source target := by gcongr; exact hle _ _
        _ ≤ new.words target target := words_mul_words_le _ _ _
    refine add_le (hle s t) ?_
    calc nfa.words s source * (nfa.words target source)∗ * nfa.words target t
        = nfa.words s source * 1 * (nfa.words target source)∗ *
          nfa.words target t := by rw [mul_one]
      _ ≤ new.words s source * new.words source target * (new.words target target)∗
            * new.words target t := by
          gcongr
          · exact hle _ _
          · exact hle _ _
      _ ≤ new.words s target * new.words target target * new.words target t := by
          gcongr
          · exact words_mul_words_le _ _ _
          · exact words_kstar_le _
      _ ≤ new.words s target * new.words target t := by
          gcongr
          exact words_mul_words_le _ _ _
      _ ≤ new.words s t := words_mul_words_le _ _ _

/-! ### States that no move enters or leaves -/

/-- The states that moves lead to from a state. -/
def targets (nfa : Nfa) (s : Nat) : List Nat := nfa.silentFrom s ++ (nfa.movesFrom s).map Prod.snd

theorem targets_fresh (nfa : Nfa) (s : Nat) : nfa.fresh.2.targets s = nfa.targets s := by
  rw [targets, targets, silentFrom_fresh, movesFrom_fresh]

/-- No move enters the state. -/
def IsSource (nfa : Nfa) (state : Nat) : Prop := ∀ s, state ∉ nfa.targets s

/-- No move leaves the state. -/
def IsSink (nfa : Nfa) (state : Nat) : Prop := nfa.targets state = []

theorem mem_targets_of_silent {s t : Nat} (h : t ∈ nfa.silentFrom s) : t ∈ nfa.targets s :=
  List.mem_append_left _ h

theorem mem_targets_of_move {s t : Nat} {token : String} (h : (token, t) ∈ nfa.movesFrom s) :
    t ∈ nfa.targets s :=
  List.mem_append_right _ (List.mem_map.mpr ⟨_, h, rfl⟩)

theorem IsSource.eq_of_path {state s : Nat} {word : List String} (hsource : nfa.IsSource state)
    (h : nfa.Path s word state) : s = state ∧ word = [] := by
  generalize ht : state = t at h
  induction h with
  | done => exact ⟨rfl, rfl⟩
  | silent hstep _ ih =>
    obtain ⟨rfl, -⟩ := ih ht
    exact absurd (mem_targets_of_silent hstep) (ht ▸ hsource _)
  | read hstep _ ih =>
    obtain ⟨rfl, -⟩ := ih ht
    exact absurd (mem_targets_of_move hstep) (ht ▸ hsource _)

theorem IsSink.eq_of_path {state t : Nat} {word : List String} (hsink : nfa.IsSink state)
    (h : nfa.Path state word t) : t = state ∧ word = [] := by
  cases h with
  | done => exact ⟨rfl, rfl⟩
  | silent hstep _ => exact absurd (mem_targets_of_silent hstep) (by rw [hsink]; simp)
  | read hstep _ => exact absurd (mem_targets_of_move hstep) (by rw [hsink]; simp)

theorem IsSource.words_self {state : Nat} (h : nfa.IsSource state) : nfa.words state state = 1 :=
  Language.ext fun _ => ⟨fun hp => (h.eq_of_path hp).2, fun hp => hp ▸ nil_mem_words state⟩

theorem IsSource.words_of_ne {state s : Nat} (h : nfa.IsSource state) (hs : s ≠ state) :
    nfa.words s state = 0 :=
  Language.ext fun _ => ⟨fun hp => hs (h.eq_of_path hp).1, False.elim⟩

theorem IsSink.words_self {state : Nat} (h : nfa.IsSink state) : nfa.words state state = 1 :=
  Language.ext fun _ => ⟨fun hp => (h.eq_of_path hp).2, fun hp => hp ▸ nil_mem_words state⟩

/-- Where only one move leads on, and to where nothing leads on, its token is read and nothing
else. -/
theorem IsSink.words_of_move {s t : Nat} {token : String} (h : nfa.IsSink t) (hne : s ≠ t)
    (hsilent : nfa.silentFrom s = []) (hmoves : nfa.movesFrom s = [(token, t)]) :
    nfa.words s t = {[token]} := by
  refine Language.ext fun word => ?_
  constructor
  · intro hpath
    cases hpath with
    | done => exact absurd rfl hne
    | silent hstep _ =>
      rw [hsilent] at hstep
      exact absurd hstep List.not_mem_nil
    | read hstep htail =>
      rw [hmoves] at hstep
      obtain ⟨rfl, rfl⟩ := Prod.mk.inj (List.mem_singleton.mp hstep)
      rw [(h.eq_of_path htail).2]
      rfl
  · rintro rfl
    exact .read (by rw [hmoves]; exact List.mem_singleton_self _) (.done _)

theorem IsSink.words_of_ne {state t : Nat} (h : nfa.IsSink state) (ht : t ≠ state) :
    nfa.words state t = 0 :=
  Language.ext fun _ => ⟨fun hp => ht (h.eq_of_path hp).1, False.elim⟩

theorem targets_addSilent {source : Nat} (hsource : source < nfa.states.size) (target s : Nat) :
    (nfa.addSilent source target).targets s
      = if s = source then target :: nfa.targets s else nfa.targets s := by
  unfold targets
  rw [silentFrom_addSilent hsource, movesFrom_addSilent]
  split <;> rfl

theorem IsSource.addSilent {state source target : Nat} (h : nfa.IsSource state)
    (hsource : source < nfa.states.size) (hne : target ≠ state) :
    (nfa.addSilent source target).IsSource state := by
  intro s
  rw [targets_addSilent hsource]
  split
  · intro hmem
    rcases List.mem_cons.mp hmem with heq | hmem
    · exact hne heq.symm
    · exact h s hmem
  · exact h s

theorem IsSink.addSilent {state source target : Nat} (h : nfa.IsSink state)
    (hsource : source < nfa.states.size) (hne : source ≠ state) :
    (nfa.addSilent source target).IsSink state := by
  unfold IsSink
  rw [targets_addSilent hsource, if_neg (Ne.symm hne)]
  exact h

/-- A move out of a source changes only the paths from there. -/
theorem IsSource.words_addSilent {source : Nat} (h : nfa.IsSource source)
    (hsource : source < nfa.states.size) {target : Nat} (hne : target ≠ source) (s t : Nat) :
    (nfa.addSilent source target).words s t
      = if s = source then nfa.words s t + nfa.words target t else nfa.words s t := by
  rw [Nfa.words_addSilent hsource, detours, h.words_of_ne hne]
  split
  · rename_i hs
    rw [hs, h.words_self, kstar_zero, one_mul, one_mul]
  · rename_i hs
    rw [h.words_of_ne hs, zero_mul, zero_mul, add_zero]

/-- A move into a sink changes only the paths that end there. -/
theorem IsSink.words_addSilent {target : Nat} (h : nfa.IsSink target) {source : Nat}
    (hsource : source < nfa.states.size) (hne : source ≠ target) (s t : Nat) :
    (nfa.addSilent source target).words s t
      = if t = target then nfa.words s t + nfa.words s source else nfa.words s t := by
  rw [Nfa.words_addSilent hsource, detours, h.words_of_ne hne]
  split
  · rename_i ht
    rw [ht, h.words_self, kstar_zero, mul_one, mul_one]
  · rename_i ht
    rw [h.words_of_ne ht, mul_zero, add_zero]

end RelaxSchema.Nfa
