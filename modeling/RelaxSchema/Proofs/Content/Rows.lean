import RelaxSchema.Proofs.Automaton.Trim
import RelaxSchema.Proofs.Content.Expression

/-!
# Rows of automata

Content is read by a row of automata, one for each block of unordered content and one alone for
other content (`Engine.row`), so what holds of a row holds of both engines.

* `Expression.acceptsFrom_iff_mem_languageFrom`: an expression accepts what its row reads;
* `Expression.accepts_iff_reads`: which tokens a compiled expression accepts, whatever its content
  model.

A token goes to the first block that can read it, even if a later one would have to take it. An
automaton without dead ends can read a token exactly if a word that it still reads begins with it,
so which block takes the token depends on the languages alone (`Takes`).
-/

namespace RelaxSchema

open List

/-! ### Languages that share tokens out -/

/-- A token goes to the first language with a word that begins with it, and is taken off there. -/
inductive Takes (token : String) : List (Language String) → List (Language String) → Prop
  /-- The first language has such a word. -/
  | first {language : Language String} {others : List (Language String)} :
      (∃ word, token :: word ∈ language) →
      Takes token (language :: others) (language.leftQuotient [token] :: others)
  /-- The first language has none, so the others are asked. -/
  | later {language : Language String} {others next : List (Language String)} :
      (¬∃ word, token :: word ∈ language) → Takes token others next →
      Takes token (language :: others) (language :: next)

/-- Whether languages take some tokens one by one and may end after them. -/
def Reads : List (Language String) → List String → Prop
  | languages, [] => ∀ language ∈ languages, [] ∈ language
  | languages, token :: rest => ∃ next, Takes token languages next ∧ Reads next rest

/-- There is no choice in who takes a token. -/
theorem Takes.unique {token : String} {languages next next' : List (Language String)}
    (h : Takes token languages next) (h' : Takes token languages next') : next = next' := by
  induction h generalizing next' with
  | first hword =>
    cases h' with
    | first _ => rfl
    | later hnone _ => exact absurd hword hnone
  | later hnone _ ih =>
    cases h' with
    | first hword => exact absurd hword hnone
    | later _ hothers => rw [ih hothers]

/-- What a language keeps if a token is taken off holds of all languages afterwards. -/
theorem Takes.forall {P : Language String → Prop} {token : String}
    {languages next : List (Language String)} (h : Takes token languages next)
    (hkeeps : ∀ language, P language → (∃ word, token :: word ∈ language) →
      P (language.leftQuotient [token]))
    (hall : ∀ language ∈ languages, P language) : ∀ language ∈ next, P language := by
  induction h with
  | first hword =>
    obtain ⟨hfirst, hothers⟩ := forall_mem_cons.mp hall
    exact forall_mem_cons.mpr ⟨hkeeps _ hfirst hword, hothers⟩
  | later _ _ ih =>
    obtain ⟨hfirst, hothers⟩ := forall_mem_cons.mp hall
    exact forall_mem_cons.mpr ⟨hfirst, ih hothers⟩

/-! ### Automata without dead ends -/

/-- Each token that an automaton reads can be completed to something that is read to the end. -/
def Dfa.IsTrim (dfa : Dfa) : Prop :=
  ∀ state token next, dfa.consume state token = some next → ∃ word, word ∈ dfa.languageFrom next

namespace Interleave

variable {token : String} {blocks : List Dfa} {states : List Nat}

/-- Selection gives a token to the first language that can take it. -/
theorem takes_of_select (htrim : ∀ block ∈ blocks, block.IsTrim) {position next : Nat}
    (h : select token blocks states = some (position, next)) :
    Takes token (remaining blocks states) (remaining blocks (states.set position next)) := by
  induction blocks generalizing states position with
  | nil => simp [select] at h
  | cons block blocks ih =>
    cases states with
    | nil => simp [select] at h
    | cons state states =>
      obtain ⟨hblock, hblocks⟩ := forall_mem_cons.mp htrim
      rw [select] at h
      cases hconsume : block.consume state token with
      | some successor =>
        rw [hconsume] at h
        obtain ⟨rfl, rfl⟩ := Prod.mk.inj (Option.some.inj h)
        obtain ⟨word, hword⟩ := hblock _ _ _ hconsume
        show Takes token (block.languageFrom state :: remaining blocks states)
          (block.languageFrom successor :: remaining blocks states)
        rw [← Dfa.leftQuotient_languageFrom hconsume] at hword ⊢
        exact .first ⟨word, hword⟩
      | none =>
        rw [hconsume] at h
        obtain ⟨⟨later, successor⟩, hlater, heq⟩ := Option.map_eq_some_iff.mp h
        obtain ⟨rfl, rfl⟩ := Prod.mk.inj heq
        -- The first automaton refuses the token, so no word that it reads begins with it.
        refine .later ?_ (ih hblocks hlater)
        rintro ⟨word, hword⟩
        obtain ⟨next, hnext⟩ := Dfa.exists_consume_of_mem_leftQuotient hword
        exact absurd (hconsume.symm.trans hnext) (Option.some_ne_none next).symm

/-- A token that a language can take is read by some automaton. -/
theorem exists_select_of_takes {languages : List (Language String)}
    (h : Takes token (remaining blocks states) languages) :
    ∃ result, select token blocks states = some result := by
  induction blocks generalizing states languages with
  | nil => cases h
  | cons block blocks ih =>
    cases states with
    | nil => cases h
    | cons state states =>
      rw [select]
      cases hconsume : block.consume state token with
      | some successor => exact ⟨_, rfl⟩
      | none =>
        cases h with
        | first hword =>
          obtain ⟨word, hword⟩ := hword
          obtain ⟨next, hnext⟩ := Dfa.exists_consume_of_mem_leftQuotient hword
          exact absurd (hconsume.symm.trans hnext) (Option.some_ne_none next).symm
        | later _ hothers =>
          obtain ⟨result, hresult⟩ := ih hothers
          exact ⟨_, Option.map_eq_some_iff.mpr ⟨result, hresult, rfl⟩⟩

end Interleave

/-! ### Rows -/

/-- The blocks of unordered content; other content is one block. -/
def Model.parts : Model → List Model
  | interleave blocks => blocks
  | model => [model]

theorem Model.parts_eq_singleton {model : Model} (h : ∀ blocks, model ≠ .interleave blocks) :
    model.parts = [model] := by
  cases model with
  | interleave blocks => exact absurd rfl (h blocks)
  | _ => rfl

/-- The automata of an engine side by side. -/
def Engine.row : Engine → Interleave
  | single dfa => ⟨[dfa]⟩
  | unordered interleave => interleave

/-- The lists of tokens that automata side by side read from their states without a refusal and may
end after. -/
def Interleave.languageFrom (interleave : Interleave) (states : List Nat) : Language String :=
  {word | ∃ last, word.foldlM interleave.consume states = some last ∧
    interleave.isFinished last = true}

namespace Interleave

variable {interleave : Interleave} {states : List Nat} {token : String}

theorem nil_mem_languageFrom_iff :
    [] ∈ interleave.languageFrom states ↔ interleave.isFinished states = true := by
  constructor
  · rintro ⟨last, hrun, hfinished⟩
    obtain rfl : states = last := Option.some.inj hrun
    exact hfinished
  · exact fun hfinished => ⟨states, rfl, hfinished⟩

theorem cons_mem_languageFrom_iff {word : List String} :
    token :: word ∈ interleave.languageFrom states ↔
      ∃ next, interleave.consume states token = some next ∧
        word ∈ interleave.languageFrom next := by
  constructor
  · rintro ⟨last, hrun, hfinished⟩
    rw [foldlM_cons] at hrun
    obtain ⟨next, hnext, hrest⟩ := Option.bind_eq_some_iff.mp hrun
    exact ⟨next, hnext, last, hrest, hfinished⟩
  · rintro ⟨next, hnext, last, hrest, hfinished⟩
    refine ⟨last, ?_, hfinished⟩
    rw [foldlM_cons, hnext]
    exact hrest

/-- **A row of automata without dead ends reads what their languages take.** -/
theorem mem_languageFrom_iff_reads (htrim : ∀ block ∈ interleave.blocks, block.IsTrim)
    {word : List String} :
    word ∈ interleave.languageFrom states ↔ Reads (remaining interleave.blocks states) word := by
  induction word generalizing states with
  | nil => rw [nil_mem_languageFrom_iff, isFinished_iff, Reads]
  | cons token rest ih =>
    rw [cons_mem_languageFrom_iff, Reads]
    constructor
    · rintro ⟨next, hnext, hrest⟩
      obtain ⟨⟨position, state⟩, hselect, rfl⟩ := Option.map_eq_some_iff.mp hnext
      exact ⟨_, takes_of_select htrim hselect, ih.mp hrest⟩
    · rintro ⟨languages, htakes, hrest⟩
      obtain ⟨⟨position, state⟩, hselect⟩ := exists_select_of_takes htakes
      obtain rfl := htakes.unique (takes_of_select htrim hselect)
      exact ⟨_, Option.map_eq_some_iff.mpr ⟨_, hselect, rfl⟩, ih.mpr hrest⟩

end Interleave

namespace Engine

variable {engine : Engine} {states next : List Nat} {token : String}

theorem initial_row (engine : Engine) : engine.row.initial = engine.initial := by
  cases engine <;> rfl

theorem consume_row (engine : Engine) (states : List Nat) (token : String) :
    engine.row.consume states token = engine.consume states token := by
  cases engine with
  | unordered interleave => rfl
  | single dfa =>
    cases states with
    | nil => rfl
    | cons state rest =>
      rw [consume, row, Interleave.consume, Interleave.select]
      cases dfa.consume state token <;> rfl

theorem length_of_consume (h : engine.consume states token = some next) :
    next.length = states.length := by
  rw [← consume_row] at h
  obtain ⟨⟨position, state⟩, -, rfl⟩ := Option.map_eq_some_iff.mp h
  exact length_set

/-- One automaton has one state. -/
theorem isFinished_row (h : states.length = engine.initial.length) :
    engine.row.isFinished states = engine.isFinished states := by
  cases engine with
  | unordered interleave => rfl
  | single dfa =>
    obtain ⟨state, rfl⟩ := length_eq_one_iff.mp h
    exact Bool.and_true _

end Engine

namespace Expression

variable {expression : Expression}

/-- What a step of the automata keeps holds of the states of a run. -/
theorem states_foldl_consume {P : List Nat → Prop}
    (hstep : ∀ states token next, P states → expression.engine.consume states token = some next →
      P next) (tokens : List String) {run : Run} (h : P run.states) :
    P (tokens.foldl expression.consume run).states := by
  induction tokens generalizing run with
  | nil => exact h
  | cons token rest ih =>
    refine ih ?_
    rw [consume]
    cases hnext : expression.engine.consume run.states token with
    | none => exact h
    | some next => exact hstep _ _ _ h hnext

/-- A run has one state for each automaton. -/
theorem length_states_foldl_consume (tokens : List String) :
    (tokens.foldl expression.consume expression.initial).states.length =
      expression.engine.initial.length :=
  states_foldl_consume (P := fun states => states.length = expression.engine.initial.length)
    (fun _ _ _ hlength hnext => (Engine.length_of_consume hnext).trans hlength) tokens rfl

/-- An expression accepts what the row of its automata reads. -/
theorem acceptsFrom_iff_mem_languageFrom (tokens : List String) {states : List Nat}
    (h : states.length = expression.engine.initial.length) :
    expression.acceptsFrom states tokens = true ↔
      tokens ∈ expression.engine.row.languageFrom states := by
  induction tokens generalizing states with
  | nil => rw [acceptsFrom, Interleave.nil_mem_languageFrom_iff, Engine.isFinished_row h]
  | cons token rest ih =>
    rw [acceptsFrom, Interleave.cons_mem_languageFrom_iff, Engine.consume_row]
    cases hnext : expression.engine.consume states token with
    | none => simp
    | some next => simpa using ih ((Engine.length_of_consume hnext).trans h)

variable {name : String} {model : Model} {limits : Limits}

/-- Compiling an expression is compiling the blocks of its content. -/
theorem row_compile (name : String) (model : Model) (limits : Limits) :
    (fun expression => expression.engine.row) <$> compile name model limits
      = Interleave.compile model.parts name limits := by
  unfold compile Engine.compile
  split
  · rename_i blocks
    show _ = Interleave.compile blocks name limits
    cases Interleave.compile blocks name limits <;> rfl
  · rename_i hmodel
    rw [Model.parts_eq_singleton hmodel, Interleave.compile, mapM_cons, mapM_nil]
    cases model.toDfa name limits <;> rfl

/-- The row of a compiled expression has an automaton for each block of its content. -/
theorem compile_row (h : compile name model limits = .ok expression) :
    Interleave.compile model.parts name limits = .ok expression.engine.row := by
  rw [← row_compile, h]
  rfl

/-- No automaton of a compiled expression has a dead end. -/
theorem isTrim_row (h : compile name model limits = .ok expression) :
    ∀ block ∈ expression.engine.row.blocks, block.IsTrim := by
  intro dfa hdfa
  have hblocks := Interleave.compile_eq_ok_iff.mp (compile_row h)
  obtain ⟨block, -, hblock⟩ := exists_right_of_forall₂ hblocks.flip hdfa
  exact fun state token next => Model.exists_mem_languageFrom hblock

/-- **A compiled expression accepts what the blocks of its content model take.** -/
theorem accepts_iff_reads (h : compile name model limits = .ok expression) (tokens : List String) :
    expression.accepts tokens = true ↔ Reads (model.parts.map Model.language) tokens := by
  rw [accepts, acceptsFrom_iff_mem_languageFrom tokens rfl,
    Interleave.mem_languageFrom_iff_reads (isTrim_row h), ← Engine.initial_row,
    Interleave.remaining_initial (compile_row h)]

end Expression

end RelaxSchema
