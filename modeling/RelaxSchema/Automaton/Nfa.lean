import RelaxSchema.Error
import RelaxSchema.Content.Model

/-!
# Nondeterministic automata

A growing table of states with labelled and silent moves. A `Fragment` is a pair of its states, the
entry and the exit of one piece of a content model; pieces are glued together by silent moves.
`Nfa.build` turns a content model into a fragment. States are only ever added, so a fragment stays
valid while others are built beside it.
-/

namespace RelaxSchema

/-- A state: where it leads on a token and where it leads silently. -/
structure NfaState where
  /-- The labelled moves out of the state. -/
  moves : List (String × Nat) := []
  /-- The targets of its silent moves. -/
  silent : List Nat := []
  deriving Repr, DecidableEq

/-- A table of states, which are numbered in the order in which they were added. -/
structure Nfa where
  /-- The states. -/
  states : Array NfaState := #[]
  deriving Repr, DecidableEq

/-- The entry and the exit of one piece of an automaton. -/
structure Fragment where
  /-- The state to enter by. -/
  start : Nat
  /-- The state that is reached when the piece is complete. -/
  finish : Nat
  deriving Repr, DecidableEq

namespace Nfa

/-! ### States and moves -/

/-- Adds a state without moves, which is entry and exit at once. -/
def epsilon (nfa : Nfa) : Fragment × Nfa :=
  (⟨nfa.states.size, nfa.states.size⟩, ⟨nfa.states.push {}⟩)

/-- Adds an entry and an exit that are not connected. -/
def fresh (nfa : Nfa) : Fragment × Nfa :=
  (⟨nfa.states.size, nfa.states.size + 1⟩, ⟨(nfa.states.push {}).push {}⟩)

/-- Adds a labelled move. -/
def addMove (nfa : Nfa) (source : Nat) (token : String) (target : Nat) : Nfa :=
  ⟨nfa.states.modify source fun state => { state with moves := (token, target) :: state.moves }⟩

/-- Adds a silent move. -/
def addSilent (nfa : Nfa) (source target : Nat) : Nfa :=
  ⟨nfa.states.modify source fun state => { state with silent := target :: state.silent }⟩

/-! ### Fragments -/

/-- A fragment that reads one token. -/
def token (nfa : Nfa) (name : String) : Fragment × Nfa :=
  let (result, nfa) := nfa.fresh
  (result, nfa.addMove result.start name result.finish)

/-- Continues a fragment with another one. -/
def glue (built : Fragment × Nfa) (next : Fragment) : Fragment × Nfa :=
  (⟨built.1.start, next.finish⟩, built.2.addSilent built.1.finish next.start)

/-- The fragments one after the other; a fragment that reads nothing, if there is none. -/
def append (nfa : Nfa) : List Fragment → Fragment × Nfa
  | [] => nfa.epsilon
  | first :: rest => rest.foldl glue (first, nfa)

/-- Leads from the outer entry into a fragment and from its exit to the outer exit. -/
def enclose (nfa : Nfa) (outer inner : Fragment) : Nfa :=
  (nfa.addSilent outer.start inner.start).addSilent inner.finish outer.finish

/-- Any of the fragments; nothing, if there is none. -/
def merge (nfa : Nfa) (fragments : List Fragment) : Fragment × Nfa :=
  let (result, nfa) := nfa.fresh
  let nfa := if fragments.isEmpty then nfa.addSilent result.start result.finish else nfa
  (result, fragments.foldl (fun nfa inner => nfa.enclose result inner) nfa)

/-- The fragment or nothing. -/
def optional (nfa : Nfa) (inner : Fragment) : Fragment × Nfa :=
  let (result, nfa) := nfa.fresh
  (result, (nfa.enclose result inner).addSilent result.start result.finish)

/-- The fragment at least once. -/
def plus (nfa : Nfa) (inner : Fragment) : Fragment × Nfa :=
  let (result, nfa) := nfa.fresh
  (result, (nfa.enclose result inner).addSilent inner.finish inner.start)

/-- The fragment any number of times. -/
def kleene (nfa : Nfa) (inner : Fragment) : Fragment × Nfa :=
  let (result, nfa) := nfa.plus inner
  (result, nfa.addSilent result.start result.finish)

/-! ### Content models -/

/-- Applies a step to a fragment that was built, and keeps the states of one that failed. -/
def continueWith {α β : Type} (built : Except Error α × Nfa) (step : Nfa → α → β × Nfa) :
    Except Error β × Nfa :=
  match built with
  | (.ok inner, nfa) =>
    let (result, nfa) := step nfa inner
    (.ok result, nfa)
  | (.error error, nfa) => (.error error, nfa)

mutual

/-- Adds a fragment that reads the words of a content model of `element`. An interleave has no
fragment; the states added before it is met stay. -/
def build (element : String) : Model → Nfa → Except Error Fragment × Nfa
  | .token name, nfa =>
    let (result, nfa) := nfa.token name
    (.ok result, nfa)
  | .sequence blocks, nfa => continueWith (buildAll element blocks nfa) append
  | .choice blocks, nfa => continueWith (buildAll element blocks nfa) merge
  | .optional block, nfa => continueWith (build element block nfa) optional
  | .kleene block, nfa => continueWith (build element block nfa) kleene
  | .plus block, nfa => continueWith (build element block nfa) plus
  | .interleave _, nfa => (.error (.nestedInterleave element), nfa)

/-- Adds a fragment for each block, up to the first that fails. -/
def buildAll (element : String) : List Model → Nfa → Except Error (List Fragment) × Nfa
  | [], nfa => (.ok [], nfa)
  | block :: rest, nfa =>
    match build element block nfa with
    | (.ok first, nfa) =>
      continueWith (buildAll element rest nfa) fun nfa others => (first :: others, nfa)
    | (.error error, nfa) => (.error error, nfa)

end

end Nfa

end RelaxSchema
