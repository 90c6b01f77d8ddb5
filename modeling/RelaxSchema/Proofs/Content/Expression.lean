import RelaxSchema.Content.Expression
import RelaxSchema.Proofs.Automaton.Tokens

/-!
# Runs of expressions

* `Expression.violations_foldl_consume_iff`: a run that reports refused tokens and reads on is
  without reports, and may end, exactly if the tokens are accepted;
* `Expression.accepts_iff_mem_language`: which tokens a compiled expression accepts, unless its
  model is an interleave;
* `Expression.mem_allowed_of_accepts`: no expression accepts a token that its content may not hold.
-/

namespace RelaxSchema

/-! ### Tokens that are read -/

section Tokens

variable {token : String}

/-- A token goes to a block that can read it. -/
theorem Interleave.exists_consume_of_select {blocks : List Dfa} {states : List Nat}
    {position next : Nat} (h : select token blocks states = some (position, next)) :
    ∃ block ∈ blocks, ∃ state, block.consume state token = some next := by
  induction blocks generalizing states position with
  | nil => simp [select] at h
  | cons block blocks ih =>
    cases states with
    | nil => simp [select] at h
    | cons state states =>
      rw [select] at h
      split at h
      · rename_i successor hconsume
        obtain ⟨-, rfl⟩ := Prod.mk.inj (Option.some.inj h)
        exact ⟨block, List.mem_cons_self, state, hconsume⟩
      · obtain ⟨⟨later, successor⟩, hlater, heq⟩ := Option.map_eq_some_iff.mp h
        obtain ⟨-, rfl⟩ := Prod.mk.inj heq
        obtain ⟨other, hother, hconsume⟩ := ih hlater
        exact ⟨other, List.mem_cons_of_mem _ hother, hconsume⟩

theorem Engine.mem_tokens_of_consume {engine : Engine} {states next : List Nat}
    (h : engine.consume states token = some next) : token ∈ engine.tokens := by
  cases engine with
  | single dfa =>
    cases states with
    | nil => simp [consume] at h
    | cons state rest =>
      obtain ⟨successor, hsuccessor, -⟩ := Option.map_eq_some_iff.mp h
      exact Dfa.mem_tokens_iff.mpr ⟨state, successor, hsuccessor⟩
  | unordered interleave =>
    obtain ⟨⟨position, successor⟩, hselect, -⟩ := Option.map_eq_some_iff.mp h
    obtain ⟨block, hblock, state, hconsume⟩ := Interleave.exists_consume_of_select hselect
    show token ∈ interleave.tokens
    rw [Interleave.tokens, Alphabet.mem_union]
    exact ⟨block.tokens, List.mem_map_of_mem hblock,
      Dfa.mem_tokens_iff.mpr ⟨state, successor, hconsume⟩⟩

end Tokens

namespace Expression

variable {expression : Expression}

/-- **Reading on does not hide a refusal.** A run that starts without reports ends without any,
where the content may end, exactly if the automata read all tokens. -/
theorem violations_foldl_consume_iff (tokens : List String) (run : Run) :
    ((tokens.foldl expression.consume run).violations = #[] ∧
      expression.isFinished (tokens.foldl expression.consume run) = true) ↔
        run.violations = #[] ∧ expression.acceptsFrom run.states tokens = true := by
  induction tokens generalizing run with
  | nil => rfl
  | cons token rest ih =>
    rw [List.foldl_cons, ih, acceptsFrom, consume]
    cases hnext : expression.engine.consume run.states token with
    | some next => rfl
    | none => simp

/-- **What is accepted is allowed**, whatever the engine. -/
theorem mem_allowed_of_accepts {tokens : List String} (h : expression.accepts tokens = true)
    {token : String} (hmem : token ∈ tokens) : token ∈ expression.allowed := by
  suffices hfrom : ∀ states, expression.acceptsFrom states tokens = true →
      token ∈ expression.allowed from
    hfrom _ h
  clear h
  induction tokens with
  | nil => simp at hmem
  | cons first rest ih =>
    intro states haccepts
    rw [acceptsFrom] at haccepts
    split at haccepts
    · rename_i next hnext
      rcases List.mem_cons.mp hmem with rfl | hrest
      · exact Engine.mem_tokens_of_consume hnext
      · exact ih hrest next haccepts
    · simp at haccepts

/-- One automaton accepts the words that it reads from its start. -/
theorem accepts_iff_of_single {dfa : Dfa} (h : expression.engine = .single dfa)
    (tokens : List String) : expression.accepts tokens = true ↔ tokens ∈ dfa.language := by
  have hfrom : ∀ (tokens : List String) (state : Nat),
    expression.acceptsFrom [state] tokens = true ↔
      ∃ last, tokens.foldlM dfa.consume state = some last ∧ dfa.isFinished last = true := by
    intro tokens
    induction tokens with
    | nil =>
      intro state
      rw [acceptsFrom, h]
      simp [Engine.isFinished]
    | cons token rest ih =>
      intro state
      rw [acceptsFrom, h, Engine.consume, List.foldlM_cons]
      cases hnext : dfa.consume state token with
      | some next => exact ih next
      | none => simp
  rw [accepts, h]
  exact hfrom tokens 0

variable {name : String} {model : Model} {limits : Limits}

theorem exists_single_of_compile (h : compile name model limits = .ok expression)
    (hmodel : ∀ blocks, model ≠ .interleave blocks) :
    ∃ dfa, expression.engine = .single dfa ∧ model.toDfa name limits = .ok dfa := by
  obtain ⟨engine, hengine, h⟩ := bind_eq_ok_iff.mp h
  obtain rfl := Except.ok.inj h
  unfold Engine.compile at hengine
  split at hengine
  · exact absurd rfl (hmodel _)
  · obtain ⟨dfa, hdfa, rfl⟩ := map_eq_ok_iff.mp hengine
    exact ⟨dfa, rfl, hdfa⟩

/-- **A compiled expression accepts the words of its content model.** -/
theorem accepts_iff_mem_language (h : compile name model limits = .ok expression)
    (hmodel : ∀ blocks, model ≠ .interleave blocks) (tokens : List String) :
    expression.accepts tokens = true ↔ tokens ∈ model.language := by
  obtain ⟨dfa, hengine, hdfa⟩ := exists_single_of_compile h hmodel
  rw [accepts_iff_of_single hengine, Model.language_toDfa hdfa]

/-- A token is allowed if a word of the content model holds it. -/
theorem isAllowed_iff_exists_mem (h : compile name model limits = .ok expression)
    (hmodel : ∀ blocks, model ≠ .interleave blocks) (token : String) :
    expression.isAllowed token = true ↔ ∃ word ∈ model.language, token ∈ word := by
  obtain ⟨dfa, hengine, hdfa⟩ := exists_single_of_compile h hmodel
  rw [isAllowed, hengine, Engine.mentions, Model.mentions_toDfa_iff hdfa]
  constructor
  · exact Model.exists_mem_of_mem_occurrences model
  · rintro ⟨word, hword, htoken⟩
    exact Model.mem_occurrences_of_mem model hword htoken

end Expression

end RelaxSchema
