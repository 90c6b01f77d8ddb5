import RelaxSchema.Violation
import RelaxSchema.Automaton.Interleave

/-!
# Expressions

An expression is the content model of one element together with the automaton that reads it, or the
automata of its blocks if the model is an interleave at its root. A `Run` reads tokens one by one;
a token that is refused is reported and leaves the automata where they are.
-/

namespace RelaxSchema

/-- What reads the content of an element. -/
inductive Engine where
  /-- One automaton for the whole model. -/
  | single (dfa : Dfa)
  /-- One automaton for each block of an unordered content. -/
  | unordered (interleave : Interleave)
  deriving Repr, DecidableEq

/-- The compiled content model of an element. -/
structure Expression where
  /-- The element. -/
  name : String
  /-- The content model. -/
  model : Model
  /-- What reads it. -/
  engine : Engine
  deriving Repr

/-- What has been read so far. -/
structure Run where
  /-- The state of the automaton, or of each block. -/
  states : List Nat
  /-- The reports on the refused tokens. -/
  violations : Array Violation := #[]
  /-- The accepted tokens. -/
  trace : Array String := #[]
  deriving Repr, DecidableEq

namespace Engine

/-- The automata for a content model of `element`. -/
def compile (element : String) (model : Model) (limits : Limits) : Except Error Engine :=
  match model with
  | .interleave blocks => unordered <$> Interleave.compile blocks element limits
  | model => single <$> model.toDfa element limits

/-- The start states. -/
def initial : Engine → List Nat
  | single _ => [0]
  | unordered interleave => interleave.initial

/-- The states after a token. -/
def consume : Engine → List Nat → String → Option (List Nat)
  | single dfa, states, token =>
    match states with
    | [] => none
    | state :: rest => (dfa.consume state token).map fun next => next :: rest
  | unordered interleave, states, token => interleave.consume states token

/-- Whether the input may end. -/
def isFinished : Engine → List Nat → Bool
  | single dfa, states => (states.head?.map dfa.isFinished).getD false
  | unordered interleave, states => interleave.isFinished states

/-- The tokens that can be read, in ascending order. -/
def expected : Engine → List Nat → List String
  | single dfa, states => (states.head?.map dfa.expected).getD []
  | unordered interleave, states => interleave.expected states

/-- The tokens that can be read in any state, in ascending order. -/
def tokens : Engine → List String
  | single dfa => dfa.tokens
  | unordered interleave => interleave.tokens

/-- Whether a token can be read in some state. -/
def mentions : Engine → String → Bool
  | single dfa, token => dfa.mentions token
  | unordered interleave, token => interleave.mentions token

end Engine

namespace Expression

/-- Compiles the content model of an element. -/
def compile (name : String) (model : Model) (limits : Limits) : Except Error Expression := do
  let engine ← Engine.compile name model limits
  .ok ⟨name, model, engine⟩

/-- Whether the content is unordered. -/
def isInterleave (expression : Expression) : Bool :=
  match expression.engine with
  | .single _ => false
  | .unordered _ => true

/-- The tokens that the content may hold, in ascending order. -/
def allowed (expression : Expression) : List String := expression.engine.tokens

/-- Whether the content may hold a token. -/
def isAllowed (expression : Expression) (token : String) : Bool := expression.engine.mentions token

/-! ### Runs -/

/-- The run that has read nothing. -/
def initial (expression : Expression) : Run := { states := expression.engine.initial }

/-- Whether the content may end here. -/
def isFinished (expression : Expression) (run : Run) : Bool :=
  expression.engine.isFinished run.states

/-- The tokens that may come next, in ascending order. -/
def expected (expression : Expression) (run : Run) : List String :=
  expression.engine.expected run.states

/-- The hint that lists the tokens that may come next. -/
def expectedReason (expected : List String) : String :=
  if expected.isEmpty then "no further content expected"
  else "expected one of: " ++ ", ".intercalate expected

/-- A violation of the content model at the present place. -/
def violation (expression : Expression) (run : Run) (kind : ViolationKind) (message : String) :
    Violation where
  kind := kind
  message := message
  element := some expression.name
  component := some expression.model.render
  reason := some (expectedReason (expression.expected run))

/-- The report that the content ends too early. -/
def incomplete (expression : Expression) (run : Run) : Violation :=
  let name := expression.name
  expression.violation run .incomplete s!"<{name}> is incomplete."

/-- The report that a token is refused. -/
def refusal (expression : Expression) (run : Run) (token : String) : Violation :=
  let name := expression.name
  if token = textToken then
    let read := ",".intercalate run.trace.toList
    expression.violation run .textNotAllowed s!"TEXT is not allowed at the current position: {read}"
  else if expression.isAllowed token then
    expression.violation run .outOfOrder
      s!"<{token}> is not allowed at the current position in <{name}>."
  else expression.violation run .notAllowed s!"<{token}> is not valid in <{name}>"

/-- Whether a token may come next. -/
def admits (expression : Expression) (run : Run) (token : String) : Bool :=
  (expression.engine.consume run.states token).isSome

/-- Reads a token, or reports it. -/
def consume (expression : Expression) (run : Run) (token : String) : Run :=
  match expression.engine.consume run.states token with
  | some states => { run with states := states, trace := run.trace.push token }
  | none => { run with violations := run.violations.push (expression.refusal run token) }

/-- Whether the automata read all tokens from the given states and may end after them. -/
def acceptsFrom (expression : Expression) (states : List Nat) : List String → Bool
  | [] => expression.engine.isFinished states
  | token :: rest =>
    match expression.engine.consume states token with
    | some next => expression.acceptsFrom next rest
    | none => false

/-- Whether the tokens are a complete content. -/
def accepts (expression : Expression) (tokens : List String) : Bool :=
  expression.acceptsFrom expression.engine.initial tokens

end Expression

end RelaxSchema
