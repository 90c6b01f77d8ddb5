import RelaxSchema.Content.Alphabet

/-!
# Deterministic automata

A table of rows, one for each state. State `0` is the start. A row lists the tokens that can be
read there, in ascending order, each with the state it leads to.
-/

namespace RelaxSchema

/-- A state of a deterministic automaton. -/
structure DfaState where
  /-- The tokens that can be read and the states they lead to, in ascending order of the tokens. -/
  row : List (String × Nat)
  /-- Whether the input may end here. -/
  finished : Bool
  deriving Repr, DecidableEq

/-- A deterministic automaton; its start is state `0`. -/
structure Dfa where
  /-- The states. -/
  states : Array DfaState
  deriving Repr, DecidableEq

namespace Dfa

/-- The state that a token leads to. -/
def consume (dfa : Dfa) (state : Nat) (token : String) : Option Nat :=
  dfa.states[state]?.bind fun entry => entry.row.lookup token

/-- Whether the input may end in a state. -/
def isFinished (dfa : Dfa) (state : Nat) : Bool :=
  (dfa.states[state]?.map DfaState.finished).getD false

/-- The tokens that can be read in a state, in ascending order. -/
def expected (dfa : Dfa) (state : Nat) : List String :=
  (dfa.states[state]?.map fun entry => entry.row.map Prod.fst).getD []

/-- The tokens that can be read in any state. -/
def tokens (dfa : Dfa) : List String :=
  Alphabet.union (dfa.states.toList.map fun entry => entry.row.map Prod.fst)

/-- Whether a token can be read in some state. -/
def mentions (dfa : Dfa) (token : String) : Bool :=
  dfa.states.any fun entry => (entry.row.lookup token).isSome

end Dfa

end RelaxSchema
