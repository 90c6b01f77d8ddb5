import RelaxSchema.Proofs.Content.Rows
import RelaxSchema.Proofs.Content.Replay

/-!
# The tokens that content may hold

* `Expression.isAllowed_iff_mem_tokens`: a compiled expression allows the tokens of its content
  model, whatever reads the content;
* `Expression.forall₂_refused`: a run has one report for each refused token, in their order;
* `Expression.allowed_eq_ofList_tokens`: so the kind of a report says whether the model has the
  token.

The allowed tokens are read off the moves of the automata. They are the tokens of the model because
no automaton moves on another token, and because each token of a block stands in a word that is
read.
-/

namespace RelaxSchema

open List

/-! ### Moves and tokens -/

section Mentions

variable {token : String}

theorem Dfa.mem_tokens_iff_mentions {dfa : Dfa} :
    token ∈ dfa.tokens ↔ dfa.mentions token = true := by
  rw [mem_tokens_iff, mentions_iff_exists_consume]

theorem Engine.mem_tokens_iff_mentions {engine : Engine} :
    token ∈ engine.tokens ↔ engine.mentions token = true := by
  cases engine with
  | single dfa => exact Dfa.mem_tokens_iff_mentions
  | unordered interleave =>
    rw [tokens, mentions, Interleave.tokens, Interleave.mentions, Alphabet.mem_union, any_eq_true]
    simp only [mem_map, exists_exists_and_eq_and, Dfa.mem_tokens_iff_mentions]

theorem Engine.mentions_row (engine : Engine) :
    engine.row.mentions token = engine.mentions token := by
  cases engine with
  | unordered interleave => rfl
  | single dfa => exact Bool.or_false _

/-- The automata of some blocks read the tokens of the blocks. -/
theorem Interleave.mentions_iff_of_compile {blocks : List Model} {element : String}
    {limits : Limits} {interleave : Interleave}
    (h : compile blocks element limits = .ok interleave) :
    interleave.mentions token = true ↔ ∃ block ∈ blocks, token ∈ block.occurrences := by
  have hblocks := compile_eq_ok_iff.mp h
  rw [mentions, any_eq_true]
  constructor
  · rintro ⟨dfa, hdfa, hmentions⟩
    obtain ⟨block, hblock, hcompiled⟩ := exists_right_of_forall₂ hblocks.flip hdfa
    exact ⟨block, hblock, (Model.mentions_toDfa_iff hcompiled token).mp hmentions⟩
  · rintro ⟨block, hblock, hmem⟩
    obtain ⟨dfa, hdfa, hcompiled⟩ := exists_right_of_forall₂ hblocks hblock
    exact ⟨dfa, hdfa, (Model.mentions_toDfa_iff hcompiled token).mpr hmem⟩

/-- A token of a model is one of its blocks. -/
theorem Model.mem_tokens_iff_exists_part {model : Model} :
    token ∈ model.tokens ↔ ∃ block ∈ model.parts, token ∈ block.occurrences := by
  have hall : ∀ blocks, token ∈ occurrencesAll blocks ↔
      ∃ block ∈ blocks, token ∈ block.occurrences := by
    intro blocks
    induction blocks with
    | nil => simp [occurrencesAll]
    | cons block rest ih => rw [occurrencesAll, mem_append, ih, exists_mem_cons_iff]
  rw [tokens, mem_distinct]
  cases model with
  | interleave blocks => exact hall blocks
  | _ => simp [parts]

end Mentions

/-! ### Reports on refused tokens -/

/-- What the kind of a report says about a refused token: that it is character data, or a child that
the model has at another place, or one that it has nowhere. -/
structure Model.IsRefusalKind (model : Model) (token : String) (kind : ViolationKind) : Prop where
  /-- Character data has a kind of its own. -/
  textNotAllowed_iff : kind = .textNotAllowed ↔ token = textToken
  /-- The model has the token. -/
  outOfOrder_iff : kind = .outOfOrder ↔ token ≠ textToken ∧ token ∈ model.tokens
  /-- The model does not have the token. -/
  notAllowed_iff : kind = .notAllowed ↔ token ≠ textToken ∧ token ∉ model.tokens

namespace Expression

variable {expression : Expression} {name : String} {model : Model} {limits : Limits}
    {token : String}

/-- The tokens that are refused of those that a run is fed with. -/
def refused (expression : Expression) (run : Run) (tokens : List String) : List String :=
  ((tokens.zip (expression.answers run tokens)).filter fun pair => !pair.2).map Prod.fst

theorem refused_cons (run : Run) (rest : List String) : expression.refused run (token :: rest) =
    if expression.admits run token then expression.refused (expression.consume run token) rest
    else token :: expression.refused (expression.consume run token) rest := by
  rw [refused, answers, zip_cons_cons, filter_cons, refused]
  cases expression.admits run token <;> rfl

/-- **Each refused token is reported once**, in the order of the tokens. -/
theorem forall₂_refused {R : Violation → String → Prop}
    (hrefusal : ∀ run token, R (expression.refusal run token) token) (tokens : List String)
    (run : Run) : ∃ reports, (tokens.foldl expression.consume run).violations.toList =
      run.violations.toList ++ reports ∧ Forall₂ R reports (expression.refused run tokens) := by
  induction tokens generalizing run with
  | nil => exact ⟨[], (append_nil _).symm, .nil⟩
  | cons token rest ih =>
    obtain ⟨reports, hreports, hall⟩ := ih (expression.consume run token)
    rw [foldl_cons, hreports, refused_cons]
    cases h : expression.admits run token with
    | true =>
      obtain ⟨states, hconsume⟩ := consume_of_admits h
      rw [hconsume] at hall ⊢
      exact ⟨reports, rfl, hall⟩
    | false =>
      refine ⟨expression.refusal run token :: reports, ?_, .cons (hrefusal run token) hall⟩
      rw [consume_of_not_admits h, Array.toList_push, append_assoc, singleton_append]

/-- **What is allowed is what the content model has.** -/
theorem isAllowed_iff_mem_tokens (h : compile name model limits = .ok expression) :
    expression.isAllowed token = true ↔ token ∈ model.tokens := by
  rw [isAllowed, ← Engine.mentions_row, Interleave.mentions_iff_of_compile (compile_row h),
    Model.mem_tokens_iff_exists_part]

/-- Allowed tokens are listed in ascending order. -/
theorem ordered_allowed (expression : Expression) : Alphabet.Ordered expression.allowed := by
  unfold allowed Engine.tokens
  cases expression.engine with
  | single dfa => exact Alphabet.ordered_union _
  | unordered interleave => exact Alphabet.ordered_union _

theorem isRefusalKind_refusal (h : compile name model limits = .ok expression) (run : Run)
    (token : String) : model.IsRefusalKind token (expression.refusal run token).kind := by
  have hallowed : expression.isAllowed token = true ↔ token ∈ model.tokens :=
    isAllowed_iff_mem_tokens h
  unfold refusal
  by_cases htext : token = textToken
  · rw [if_pos htext]
    constructor <;> simp [violation, htext]
  · rw [if_neg htext]
    by_cases hmem : token ∈ model.tokens
    · rw [if_pos (hallowed.mpr hmem)]
      constructor <;> simp [violation, htext, hmem]
    · rw [if_neg (hallowed.not.mpr hmem)]
      constructor <;> simp [violation, htext, hmem]

/-- **Allowed tokens and kinds of reports are exact**, whatever reads the content. The allowed
tokens are those of the content model. A run has a report for each refused token, in their order: on
character data of its own kind, on any other token of the kind that says whether the model has the
token. Each allowed token stands in some content that is accepted, if the content is not
unordered. -/
theorem allowed_eq_ofList_tokens (h : compile name model limits = .ok expression) :
    expression.allowed = Alphabet.ofList model.tokens ∧
    (∀ token, expression.isAllowed token = true ↔ token ∈ expression.allowed) ∧
    (∀ tokens : List String,
      Forall₂ (fun (report : Violation) token => model.IsRefusalKind token report.kind)
        (tokens.foldl expression.consume expression.initial).violations.toList
        (expression.refused expression.initial tokens)) ∧
    ((∀ blocks, model ≠ .interleave blocks) → ∀ token ∈ model.tokens,
      ∃ tokens, expression.accepts tokens = true ∧ token ∈ tokens) := by
  have hmem : ∀ token, expression.isAllowed token = true ↔ token ∈ expression.allowed :=
    fun token => Engine.mem_tokens_iff_mentions.symm
  have hordered : Alphabet.Ordered expression.allowed := by
    unfold allowed Engine.tokens
    cases expression.engine with
    | single dfa => exact Alphabet.ordered_union _
    | unordered interleave => exact Alphabet.ordered_union _
  refine ⟨?_, hmem, fun tokens => ?_, fun hmodel token htoken => ?_⟩
  · refine Alphabet.ext hordered (Alphabet.ordered_ofList _) fun token => ?_
    rw [← hmem, isAllowed_iff_mem_tokens h, Alphabet.mem_ofList]
  · obtain ⟨reports, hreports, hall⟩ := forall₂_refused
      (R := fun report token => model.IsRefusalKind token report.kind) (isRefusalKind_refusal h)
      tokens expression.initial
    rw [hreports]
    exact hall
  · obtain ⟨word, hword, hin⟩ := Model.exists_mem_of_mem_occurrences model (mem_distinct.mp htoken)
    exact ⟨word, (accepts_iff_mem_language h hmodel word).mpr hword, hin⟩

/-- Before its `a`, an element with an `a` and then any mixture of `b` and text refuses a `b` as
misplaced, text as text, and a `c` as unknown. -/
theorem allowed_eq_ofList_tokens_mixed :
    let model := Model.sequence [.token "a", .kleene (.choice [.token "b", .token textToken])]
    let expression : Expression := ⟨"e", model, .single ⟨#[⟨[("a", 1)], false⟩,
      ⟨[("TEXT", 2), ("b", 3)], true⟩, ⟨[("TEXT", 2), ("b", 3)], true⟩,
      ⟨[("TEXT", 2), ("b", 3)], true⟩]⟩⟩
    compile "e" model {} = .ok expression ∧ expression.allowed = ["TEXT", "a", "b"] ∧
      (["b", "TEXT", "c", "a"].foldl expression.consume expression.initial).violations.toList.map
        Violation.kind = [.outOfOrder, .textNotAllowed, .notAllowed] ∧
      ∃ tokens, expression.accepts tokens = true ∧ "b" ∈ tokens := by
  intro model expression
  have hcompile : compile "e" model {} = .ok expression := by cbv
  obtain ⟨hallowed, -, hreports, haccepted⟩ := allowed_eq_ofList_tokens hcompile
  refine ⟨hcompile, hallowed.trans (by decide), ?_, haccepted (by simp [model]) "b" (by decide)⟩
  have hrefused : expression.refused expression.initial ["b", "TEXT", "c", "a"] = ["b",
      "TEXT", "c"] := by
    cbv
  have hkinds := hrefused ▸ hreports ["b", "TEXT", "c", "a"]
  obtain ⟨first, behind, hfirst, hbehind, hall⟩ := forall₂_cons_right_iff.mp hkinds
  obtain ⟨second, last, hsecond, hlast, rfl⟩ := forall₂_cons_right_iff.mp hbehind
  obtain ⟨third, none, hthird, hnone, rfl⟩ := forall₂_cons_right_iff.mp hlast
  rw [hall, forall₂_nil_right_iff.mp hnone, map_cons, map_cons, map_singleton,
    hfirst.outOfOrder_iff.mpr (by decide), hsecond.textNotAllowed_iff.mpr rfl,
    hthird.notAllowed_iff.mpr (by decide)]

end Expression

end RelaxSchema
