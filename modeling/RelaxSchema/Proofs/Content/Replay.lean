import Mathlib
import RelaxSchema.Content.Expression

/-!
# Runs without the refused tokens

A refused token is reported and then forgotten.

* `Expression.foldl_accepted`: reading only the tokens that a run accepts leads to the same run, but
  for its reports;
* `Expression.violations_foldl_of_cleared`: the reports of a run, each read off the tokens accepted
  before it;
* `Expression.replay_accepted`: a run and the replay of its accepted tokens cannot be told apart by
  what is read afterwards.

Reports are added behind those that are there and are never looked at, so a run is compared with
others after they are taken away (`Run.cleared`).
-/

namespace RelaxSchema

/-- A run without its reports. -/
def Run.cleared (run : Run) : Run := { run with violations := #[] }

namespace Expression

/-- For each of some tokens that a run is fed with, whether it is accepted. -/
def answers (expression : Expression) : Run → List String → List Bool
  | _, [] => []
  | run, token :: rest =>
    expression.admits run token :: answers expression (expression.consume run token) rest

/-- The tokens that are accepted of those that a run is fed with. -/
def accepted (expression : Expression) (run : Run) (tokens : List String) : List String :=
  ((tokens.zip (expression.answers run tokens)).filter Prod.snd).map Prod.fst

/-- The reports on the tokens that are refused, if others were accepted before them. Each token is
shown to the automata that have read the accepted tokens from the start. -/
def refusals (expression : Expression) : List String → List String → List Violation
  | _, [] => []
  | read, token :: rest =>
    let run := read.foldl expression.consume expression.initial
    if expression.admits run token then refusals expression (read ++ [token]) rest
    else expression.refusal run token :: refusals expression read rest

variable {expression : Expression}

/-! ### One token -/

section Step

variable {run : Run} {token : String}

theorem consume_of_admits (h : expression.admits run token = true) :
    ∃ states, expression.consume run token =
      { run with states := states, trace := run.trace.push token } := by
  obtain ⟨states, hstates⟩ := Option.isSome_iff_exists.mp h
  exact ⟨states, by rw [consume, hstates]⟩

theorem consume_of_not_admits (h : expression.admits run token = false) :
    expression.consume run token =
      { run with violations := run.violations.push (expression.refusal run token) } := by
  rw [admits, Option.isSome_eq_false_iff, Option.isNone_iff_eq_none] at h
  rw [consume, h]

theorem admits_cleared (run : Run) (token : String) :
    expression.admits run.cleared token = expression.admits run token := rfl

/-- **A refused token changes nothing but the reports.** -/
theorem cleared_consume (run : Run) (token : String) : (expression.consume run token).cleared =
    if expression.admits run token then expression.consume run.cleared token else run.cleared := by
  unfold consume admits Run.cleared
  cases expression.engine.consume run.states token <;> rfl

/-- A token is reported in the same words, whatever was reported before. -/
theorem violations_consume (run : Run) (token : String) :
    (expression.consume run token).violations =
    run.violations ++ (expression.consume run.cleared token).violations := by
  unfold consume Run.cleared
  cases expression.engine.consume run.states token with
  | some states => exact Array.append_empty.symm
  | none => exact Array.push_eq_append

theorem accepted_cons (rest : List String) : expression.accepted run (token :: rest) =
    if expression.admits run token
      then token :: expression.accepted (expression.consume run token) rest
    else expression.accepted (expression.consume run token) rest := by
  rw [accepted, answers, List.zip_cons_cons, List.filter_cons, accepted]
  split <;> rfl

end Step

/-! ### Runs -/

theorem length_answers (tokens : List String) (run : Run) :
    (expression.answers run tokens).length = tokens.length := by
  induction tokens generalizing run with
  | nil => rfl
  | cons token rest ih => rw [answers, List.length_cons, ih, List.length_cons]

/-- **Refused tokens may be left out**, but for the reports on them. -/
theorem foldl_accepted (tokens : List String) (run : Run) :
    (expression.accepted run tokens).foldl expression.consume run.cleared =
      (tokens.foldl expression.consume run).cleared := by
  induction tokens generalizing run with
  | nil => rfl
  | cons token rest ih =>
    rw [List.foldl_cons, ← ih, accepted_cons, cleared_consume]
    split <;> rfl

theorem trace_foldl_consume (tokens : List String) (run : Run) :
    (tokens.foldl expression.consume run).trace.toList =
      run.trace.toList ++ expression.accepted run tokens := by
  induction tokens generalizing run with
  | nil => exact (List.append_nil _).symm
  | cons token rest ih =>
    rw [List.foldl_cons, ih, accepted_cons]
    cases h : expression.admits run token with
    | true =>
      obtain ⟨states, hconsume⟩ := consume_of_admits h
      rw [hconsume, Array.toList_push, List.append_assoc]
      rfl
    | false =>
      rw [consume_of_not_admits h]
      rfl

theorem size_violations_foldl_consume (tokens : List String) (run : Run) :
    (tokens.foldl expression.consume run).violations.size =
      run.violations.size + (expression.answers run tokens).count false := by
  induction tokens generalizing run with
  | nil => rfl
  | cons token rest ih =>
    rw [List.foldl_cons, ih, answers, List.count_cons]
    cases h : expression.admits run token with
    | true =>
      obtain ⟨states, hconsume⟩ := consume_of_admits h
      rw [hconsume]
      rfl
    | false =>
      rw [consume_of_not_admits h, Array.size_push, if_pos (beq_self_eq_true false)]
      omega

theorem answers_cleared (tokens : List String) (run : Run) :
    expression.answers run.cleared tokens = expression.answers run tokens := by
  induction tokens generalizing run with
  | nil => rfl
  | cons token rest ih =>
    rw [answers, answers, admits_cleared, ← ih (expression.consume run.cleared token),
      ← ih (expression.consume run token), cleared_consume, cleared_consume]
    rfl

theorem cleared_foldl_consume (tokens : List String) (run : Run) :
    (tokens.foldl expression.consume run.cleared).cleared =
      (tokens.foldl expression.consume run).cleared := by
  induction tokens generalizing run with
  | nil => rfl
  | cons token rest ih =>
    rw [List.foldl_cons, List.foldl_cons, ← ih (expression.consume run.cleared token),
      ← ih (expression.consume run token), cleared_consume, cleared_consume]
    rfl

/-- Reports are added behind those that are there. -/
theorem violations_foldl_consume (tokens : List String) (run : Run) :
    (tokens.foldl expression.consume run).violations =
      run.violations ++ (tokens.foldl expression.consume run.cleared).violations := by
  induction tokens generalizing run with
  | nil => exact Array.append_empty.symm
  | cons token rest ih =>
    rw [List.foldl_cons, List.foldl_cons, ih, ih (expression.consume run.cleared token),
      violations_consume, Array.append_assoc, cleared_consume, cleared_consume]
    rfl

/-- **Each report is read off the tokens that were accepted before it.** -/
theorem violations_foldl_of_cleared {read : List String} {run : Run}
    (h : run.cleared = read.foldl expression.consume expression.initial) (tokens : List String) :
    (tokens.foldl expression.consume run).violations.toList =
      run.violations.toList ++ expression.refusals read tokens := by
  induction tokens generalizing read run with
  | nil => exact (List.append_nil _).symm
  | cons token rest ih =>
    have hcleared := @cleared_consume expression run token
    rw [List.foldl_cons, refusals, ← h, admits_cleared]
    cases hadmits : expression.admits run token with
    | true =>
      obtain ⟨states, hconsume⟩ := consume_of_admits hadmits
      rw [hadmits, if_pos rfl, h, ← List.foldl_concat expression.consume] at hcleared
      rw [ih hcleared, hconsume]
      rfl
    | false =>
      rw [hadmits, if_neg Bool.false_ne_true, h] at hcleared
      rw [ih hcleared, consume_of_not_admits hadmits, Array.toList_push, List.append_assoc]
      rfl

/-- **Refused tokens leave no trace in a run.** The trace holds the accepted tokens, and there is a
report for each other one. A new run accepts all of the accepted tokens, ends in the same states,
and from then on gives the same answers, hints and reports. -/
theorem replay_accepted (expression : Expression) (tokens : List String) :
    let run := tokens.foldl expression.consume expression.initial
    let accepted := expression.accepted expression.initial tokens
    let replay := accepted.foldl expression.consume expression.initial
    run.trace.toList = accepted ∧
      run.violations.size = (expression.answers expression.initial tokens).count false ∧
      expression.answers expression.initial accepted = List.replicate accepted.length true ∧
      replay.violations = #[] ∧ replay.trace = run.trace ∧ replay.states = run.states ∧
      ∀ later,
        expression.answers replay later = expression.answers run later ∧
        expression.isFinished (later.foldl expression.consume replay) =
          expression.isFinished (later.foldl expression.consume run) ∧
        expression.expected (later.foldl expression.consume replay) =
          expression.expected (later.foldl expression.consume run) ∧
        run.violations ++ (later.foldl expression.consume replay).violations =
          (later.foldl expression.consume run).violations := by
  intro run accepted replay
  have hreplay : replay = run.cleared := foldl_accepted tokens expression.initial
  have hsame : ∀ later : List String, (later.foldl expression.consume replay).cleared =
      (later.foldl expression.consume run).cleared := by
    intro later
    rw [hreplay]
    exact cleared_foldl_consume later run
  have hcount : (expression.answers expression.initial accepted).count false = 0 := by
    have hsize := @size_violations_foldl_consume expression accepted expression.initial
    rw [show accepted.foldl expression.consume expression.initial =
      run.cleared from hreplay] at hsize
    exact Nat.eq_zero_of_add_eq_zero_left hsize.symm
  refine ⟨?_, ?_, ?_, ?_, ?_, ?_, fun later => ⟨?_, ?_, ?_, ?_⟩⟩
  · exact trace_foldl_consume tokens expression.initial
  · exact (size_violations_foldl_consume tokens expression.initial).trans (Nat.zero_add _)
  · refine List.eq_replicate_iff.mpr ⟨length_answers accepted expression.initial,
      fun answer hanswer => ?_⟩
    exact Bool.eq_true_of_not_eq_false fun hfalse => List.count_eq_zero.mp hcount (hfalse ▸ hanswer)
  · rw [hreplay]
    rfl
  · rw [hreplay]
    rfl
  · rw [hreplay]
    rfl
  · rw [hreplay]
    exact answers_cleared later run
  · exact congrArg (fun run => expression.engine.isFinished run.states) (hsame later)
  · exact congrArg (fun run => expression.engine.expected run.states) (hsame later)
  · rw [hreplay]
    exact (violations_foldl_consume later run).symm

end Expression

end RelaxSchema
