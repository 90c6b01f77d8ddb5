import RelaxSchema.Proofs.Content.Replay
import RelaxSchema.Proofs.Content.Rows

/-!
# What may come next

* `Expression.mem_expected_iff`: the hints of a run list the tokens that it accepts;
* `Expression.exists_acceptsFrom`: what was read can always be completed, unless blocks of unordered
  content share a token;
* `Expression.admits_iff_exists_accepts`: a token is refused at once if no content goes on with it.

Each state in a row of automata can be completed, because automata of content models have no dead
ends, and the completions are read one after the other.
-/

namespace RelaxSchema

open List

/-! ### Hints -/

section Hints

variable {token : String}

/-- Some block takes the token if it is a hint of some block. -/
theorem Interleave.exists_select_iff {blocks : List Dfa} {states : List Nat} :
    (∃ result, select token blocks states = some result) ↔
      ∃ pair ∈ blocks.zip states, token ∈ pair.1.expected pair.2 := by
  induction blocks generalizing states with
  | nil => simp [select]
  | cons block rest ih =>
    cases states with
    | nil => simp [select]
    | cons state others =>
      rw [select, zip_cons_cons, exists_mem_cons_iff, ← ih, Dfa.mem_expected_iff]
      cases block.consume state token with
      | some next => simp
      | none => simpa using exists_comm

theorem Engine.mem_expected_iff {engine : Engine} {states : List Nat} :
    token ∈ engine.expected states ↔ ∃ next, engine.consume states token = some next := by
  cases engine with
  | single dfa =>
    cases states with
    | nil => simp [expected, consume]
    | cons state rest =>
      rw [consume, expected, head?_cons, Option.map_some, Option.getD_some, Dfa.mem_expected_iff]
      simp
  | unordered interleave =>
    rw [expected, consume, Interleave.expected, Interleave.consume, Alphabet.mem_union]
    constructor
    · rintro ⟨tokens, htokens, htoken⟩
      obtain ⟨pair, hpair, rfl⟩ := mem_map.mp htokens
      obtain ⟨result, hresult⟩ := Interleave.exists_select_iff.mpr ⟨pair, hpair, htoken⟩
      exact ⟨_, Option.map_eq_some_iff.mpr ⟨result, hresult, rfl⟩⟩
    · rintro ⟨next, hnext⟩
      obtain ⟨result, hresult, -⟩ := Option.map_eq_some_iff.mp hnext
      obtain ⟨pair, hpair, htoken⟩ := Interleave.exists_select_iff.mp ⟨result, hresult⟩
      exact ⟨_, mem_map.mpr ⟨pair, hpair, rfl⟩, htoken⟩

/-- **The hints are exact**: they list the tokens that are accepted. -/
theorem Expression.mem_expected_iff {expression : Expression} {run : Run} :
    token ∈ expression.expected run ↔ expression.admits run token = true := by
  rw [expected, Engine.mem_expected_iff, admits, Option.isSome_iff_exists]

end Hints

/-! ### Completions -/

namespace Interleave

/-- Blocks without a common token are completed one after the other. -/
theorem exists_mem_languageFrom {interleave : Interleave} (hapart : AreApart interleave.blocks)
    {states : List Nat}
    (halive : ∀ language ∈ remaining interleave.blocks states, ∃ word, word ∈ language) :
    ∃ word, word ∈ interleave.languageFrom states := by
  obtain ⟨words, hwords⟩ := exists_forall₂ halive
  exact ⟨words.flatten, exists_run_of_mem_mergeLanguage hapart ⟨words, hwords, .flatten words⟩⟩

end Interleave

namespace Expression

variable {expression : Expression} {name : String} {model : Model} {limits : Limits}

/-- **No run is at a dead end**, if no token occurs in two blocks of the content. -/
theorem exists_acceptsFrom (h : compile name model limits = .ok expression)
    (hdisjoint : model.parts.Pairwise fun first second =>
      ∀ token ∈ first.occurrences, token ∉ second.occurrences) (tokens : List String) :
    ∃ later, expression.acceptsFrom (tokens.foldl expression.consume expression.initial).states
      later = true := by
  have hrow := compile_row h
  have halive : ∀ language ∈ Interleave.remaining expression.engine.row.blocks
      (tokens.foldl expression.consume expression.initial).states, ∃ word, word ∈ language := by
    refine states_foldl_consume (P := fun states => ∀ language ∈
      Interleave.remaining expression.engine.row.blocks states,
      ∃ word, word ∈ language) ?_ tokens ?_
    · intro states token next hstates hnext
      rw [← Engine.consume_row] at hnext
      obtain ⟨⟨position, state⟩, hselect, rfl⟩ := Option.map_eq_some_iff.mp hnext
      -- A language that takes the token has a word that begins with it.
      have htakes := Interleave.takes_of_select (isTrim_row h) hselect
      exact htakes.forall (fun _ _ hword => hword) hstates
    · rw [initial, ← Engine.initial_row, Interleave.remaining_initial hrow, forall_mem_map]
      exact fun block _ => block.exists_mem_language
  obtain ⟨later, hlater⟩ :=
    Interleave.exists_mem_languageFrom (Interleave.areApart_compile hrow hdisjoint) halive
  exact ⟨later,
    (acceptsFrom_iff_mem_languageFrom later (length_states_foldl_consume tokens)).mpr hlater⟩

/-- Content is accepted if each token is accepted and the content may end after the last one. -/
theorem acceptsFrom_iff_answers (tokens : List String) (run : Run) :
    expression.acceptsFrom run.states tokens = true ↔
      expression.answers run tokens = replicate tokens.length true ∧
        expression.isFinished (tokens.foldl expression.consume run) = true := by
  induction tokens generalizing run with
  | nil => exact (and_iff_right rfl).symm
  | cons token rest ih =>
    rw [acceptsFrom, answers, foldl_cons, length_cons, replicate_succ, cons.injEq, admits]
    cases hnext : expression.engine.consume run.states token with
    | none => simp
    | some next =>
      have hrun : (expression.consume run token).states = next := by rw [consume, hnext]
      rw [← hrun, ih]
      simp

/-- Tokens that are accepted one by one may stand before what is accepted after them. -/
theorem acceptsFrom_append {read : List String} {run : Run}
    (h : expression.answers run read = replicate read.length true) (later : List String) :
    expression.acceptsFrom run.states (read ++ later) =
      expression.acceptsFrom (read.foldl expression.consume run).states later := by
  induction read generalizing run with
  | nil => rfl
  | cons token rest ih =>
    rw [answers, length_cons, replicate_succ, cons.injEq, admits] at h
    obtain ⟨next, hnext⟩ := Option.isSome_iff_exists.mp h.1
    have hrun : (expression.consume run token).states = next := by rw [consume, hnext]
    rw [cons_append, acceptsFrom, hnext, foldl_cons, ← ih h.2, hrun]

/-- **Content is refused at the first token that nothing follows, and the hints are exact.** After
tokens that were accepted one by one, a token is accepted exactly if some content begins with these
tokens, and exactly if it is among the hints. From any run, whether it refused tokens or not, some
tokens lead to where the content may end. -/
theorem admits_iff_exists_accepts (h : compile name model limits = .ok expression)
    (hdisjoint : ∀ blocks, model = .interleave blocks → blocks.Pairwise fun first second =>
      ∀ token ∈ first.occurrences, token ∉ second.occurrences) :
    (∀ (read : List String) token,
      expression.answers expression.initial read = replicate read.length true →
      let run := read.foldl expression.consume expression.initial
      (expression.admits run token = true ↔
        ∃ later, expression.accepts (read ++ token :: later) = true) ∧
      (expression.admits run token = true ↔ token ∈ expression.expected run)) ∧
    ∀ tokens : List String, ∃ later,
      let run := tokens.foldl expression.consume expression.initial
      expression.answers run later = replicate later.length true ∧
        expression.isFinished (later.foldl expression.consume run) = true := by
  have hparts : model.parts.Pairwise fun first second =>
      ∀ token ∈ first.occurrences, token ∉ second.occurrences := by
    cases model with
    | interleave blocks => exact hdisjoint blocks rfl
    | _ => exact pairwise_singleton _ _
  refine ⟨fun read token hread => ⟨⟨fun hadmits => ?_, ?_⟩, mem_expected_iff.symm⟩,
    fun tokens => ?_⟩
  · -- The run that has read the token as well is not at a dead end.
    obtain ⟨later, hlater⟩ := exists_acceptsFrom h hparts (read ++ [token])
    obtain ⟨next, hnext⟩ := Option.isSome_iff_exists.mp hadmits
    refine ⟨later, ?_⟩
    rw [foldl_concat, consume, hnext] at hlater
    rw [accepts, show expression.engine.initial = expression.initial.states from rfl,
      acceptsFrom_append hread, acceptsFrom, hnext]
    exact hlater
  · rintro ⟨later, hlater⟩
    rw [accepts, show expression.engine.initial = expression.initial.states from rfl,
      acceptsFrom_append hread, acceptsFrom] at hlater
    rw [admits]
    split at hlater
    · rename_i next hnext
      rw [hnext]
      rfl
    · exact absurd hlater Bool.false_ne_true
  · obtain ⟨later, hlater⟩ := exists_acceptsFrom h hparts tokens
    exact ⟨later, (acceptsFrom_iff_answers later _).mp hlater⟩

/-- After its only `b` unordered content goes on with an `a` and not with another `b`. -/
theorem admits_iff_exists_accepts_unordered :
    let model := Model.interleave [.plus (.token "a"), .token "b"]
    let expression : Expression := ⟨"e", model, .unordered
      ⟨[⟨#[⟨[("a", 1)], false⟩, ⟨[("a", 1)], true⟩]⟩, ⟨#[⟨[("b", 1)], false⟩, ⟨[], true⟩]⟩]⟩⟩
    compile "e" model {} = .ok expression ∧
      (∃ later, expression.accepts (["b"] ++ "a" :: later) = true) ∧
      ¬ ∃ later, expression.accepts (["b"] ++ "b" :: later) = true := by
  intro model expression
  have hcompile : compile "e" model {} = .ok expression := by cbv
  have hdisjoint : ∀ blocks, model = .interleave blocks → blocks.Pairwise fun first second =>
      ∀ token ∈ first.occurrences, token ∉ second.occurrences := by
    intro blocks hblocks
    obtain rfl := Model.interleave.inj hblocks
    simp [Model.occurrences]
  have hread : expression.answers expression.initial ["b"] = replicate ["b"].length true := by cbv
  have hnext := fun token => ((admits_iff_exists_accepts hcompile hdisjoint).1 ["b"] token hread).1
  refine ⟨hcompile, (hnext "a").mp (by cbv), fun hlater => ?_⟩
  have hrefused : expression.admits (expression.consume expression.initial "b") "b" = false := by
    cbv
  exact absurd ((hnext "b").mpr hlater) (Bool.eq_false_iff.mp hrefused)

end Expression

end RelaxSchema
