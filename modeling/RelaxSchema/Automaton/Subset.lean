import Std.Data.HashMap
import RelaxSchema.Limits
import RelaxSchema.Automaton.Nfa
import RelaxSchema.Automaton.Dfa

/-!
# Determinisation

The subset construction. A state of the deterministic automaton is a set of states of the
nondeterministic one that is closed under silent moves, written as an ascending list. Sets are
numbered in the order in which a breadth-first search meets them, the tokens of one set in
ascending order; the search stops with an error when it needs more sets than the limits allow.
-/

namespace RelaxSchema

namespace Nfa

/-! ### Closed sets -/

/-- The targets of the silent moves out of a state. -/
def silentFrom (nfa : Nfa) (state : Nat) : List Nat :=
  (nfa.states[state]?.map NfaState.silent).getD []

/-- The labelled moves out of a state. -/
def movesFrom (nfa : Nfa) (state : Nat) : List (String × Nat) :=
  (nfa.states[state]?.map NfaState.moves).getD []

/-- Marks the states of `pending` and all that silent moves lead to from newly marked ones. -/
def mark (nfa : Nfa) (marked : Array Bool) (pending : List Nat) : Array Bool :=
  match pending with
  | [] => marked
  | state :: rest =>
    if _unmarked : marked[state]? = some false then
      nfa.mark (marked.set! state true) (nfa.silentFrom state ++ rest)
    else nfa.mark marked rest
termination_by (marked.count false, pending.length)
decreasing_by
  · obtain ⟨bound, value⟩ := Array.getElem?_eq_some_iff.1 _unmarked
    have positive : 0 < marked.count false :=
      Array.count_pos_iff.2 (value ▸ Array.getElem_mem bound)
    apply Prod.Lex.left
    simp only [Array.set!_eq_setIfInBounds, Array.setIfInBounds, bound, ↓reduceDIte,
      Array.count_set, value]
    simp only [BEq.rfl, ↓reduceIte, show (true == false) = false from rfl, Bool.false_eq_true]
    omega
  · exact Prod.Lex.right _ (by simp)

/-- The states that silent moves lead to from those of a list, in ascending order. -/
def closure (nfa : Nfa) (seed : List Nat) : List Nat :=
  let marked := nfa.mark (Array.replicate nfa.states.size false) seed
  (List.range nfa.states.size).filter fun state => marked.getD state false

/-- The labelled moves out of a set of states. -/
def movesFromAll (nfa : Nfa) (set : List Nat) : List (String × Nat) :=
  set.flatMap nfa.movesFrom

/-- The closed set that a token leads to from a set of states. -/
def successor (nfa : Nfa) (set : List Nat) (token : String) : List Nat :=
  nfa.closure (((nfa.movesFromAll set).filter fun move => move.1 = token).map Prod.snd)

/-- The tokens that can be read in a set of states, in ascending order, with the closed sets that
they lead to. -/
def successors (nfa : Nfa) (set : List Nat) : List (String × List Nat) :=
  (Alphabet.ofList ((nfa.movesFromAll set).map Prod.fst)).map fun token =>
    (token, nfa.successor set token)

end Nfa

/-! ### Numbered sets -/

/-- The sets met so far with their numbers, and the rows of those that are explored. -/
structure SubsetTable where
  /-- The sets in the order of their numbers. -/
  sets : Array (List Nat)
  /-- The number of each set. -/
  index : Std.HashMap (List Nat) Nat
  /-- The rows of the explored sets, in the order of their numbers. -/
  rows : Array (List (String × Nat))

namespace SubsetTable

/-- The table that holds one set, not explored. -/
def start (set : List Nat) : SubsetTable :=
  ⟨#[set], (∅ : Std.HashMap (List Nat) Nat).insert set 0, #[]⟩

/-- The number of a set, which is entered if it is new and the limits allow one set more. -/
def number (limits : Limits) (set : List Nat) (table : SubsetTable) :
    Except Error (Nat × SubsetTable) :=
  match table.index[set]? with
  | some known => .ok (known, table)
  | none => do
    let next := table.sets.size
    limits.check .dfaStates (next + 1)
    .ok (next, { table with sets := table.sets.push set, index := table.index.insert set next })

/-- The row that lists the numbers of the given sets. -/
def numberAll (limits : Limits) : List (String × List Nat) → SubsetTable →
    Except Error (List (String × Nat) × SubsetTable)
  | [], table => .ok ([], table)
  | (token, set) :: rest, table => do
    let (first, table) ← number limits set table
    let (others, table) ← numberAll limits rest table
    .ok ((token, first) :: others, table)

/-- Explores at most `fuel` sets, beginning with the first that is not explored. -/
def explore (nfa : Nfa) (limits : Limits) : Nat → SubsetTable → Except Error SubsetTable
  | 0, table => .ok table
  | fuel + 1, table =>
    match table.sets[table.rows.size]? with
    | none => .ok table
    | some set => do
      let (row, table) ← numberAll limits (nfa.successors set) table
      explore nfa limits fuel { table with rows := table.rows.push row }

/-- The automaton of an explored table. A set is final if it holds the state `finish`. -/
def toDfa (table : SubsetTable) (finish : Nat) : Dfa where
  states := table.rows.zipWith (fun row set => ⟨row, set.contains finish⟩) table.sets

end SubsetTable

/-- The deterministic automaton of a fragment. There is room for one set in any case, and a set
more is explored only after it was counted, so no more than `max 1 limits.maxDfaStates` sets are
ever explored. -/
def Nfa.determinize (nfa : Nfa) (fragment : Fragment) (limits : Limits) : Except Error Dfa := do
  let table ← SubsetTable.explore nfa limits (max 1 limits.maxDfaStates)
    (SubsetTable.start (nfa.closure [fragment.start]))
  .ok (table.toDfa fragment.finish)

/-- The deterministic automaton of a content model of `element`. -/
def Model.toDfa (model : Model) (element : String) (limits : Limits) : Except Error Dfa :=
  match Nfa.build element model {} with
  | (.ok fragment, nfa) => nfa.determinize fragment limits
  | (.error error, _) => .error error

end RelaxSchema
