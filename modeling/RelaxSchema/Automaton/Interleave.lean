import RelaxSchema.Automaton.Subset

/-!
# Interleaved automata

Unordered content is read by one automaton for each block, side by side. A token goes to the first
block, in the order of declaration, that can read it in its current state; it is never taken back.
So blocks with disjoint alphabets read exactly the merges of their words, and overlapping blocks may
refuse a merge that another distribution of the tokens would accept.
-/

namespace RelaxSchema

/-- The automata of the blocks of an unordered content. -/
structure Interleave where
  /-- One automaton for each block. -/
  blocks : List Dfa
  deriving Repr, DecidableEq

namespace Interleave

/-- The automata of the blocks; the first block without one decides the error. -/
def compile (blocks : List Model) (element : String) (limits : Limits) : Except Error Interleave :=
  Interleave.mk <$> blocks.mapM fun block => block.toDfa element limits

/-- The start state of each block. -/
def initial (interleave : Interleave) : List Nat := interleave.blocks.map fun _ => 0

/-- The number of the first block that can read the token, and the state that it leads to. -/
def select (token : String) : List Dfa → List Nat → Option (Nat × Nat)
  | block :: blocks, state :: states =>
    match block.consume state token with
    -- The first block that can read the token keeps it.
    | some next => some (0, next)
    | none => (select token blocks states).map fun (position, next) => (position + 1, next)
  | _, _ => none

/-- The number of the block that a token goes to. -/
def route (interleave : Interleave) (states : List Nat) (token : String) : Option Nat :=
  (select token interleave.blocks states).map Prod.fst

/-- The states of the blocks after a token. -/
def consume (interleave : Interleave) (states : List Nat) (token : String) : Option (List Nat) :=
  (select token interleave.blocks states).map fun (position, next) => states.set position next

/-- Whether the input may end in every block. -/
def isFinished (interleave : Interleave) (states : List Nat) : Bool :=
  (interleave.blocks.zip states).all fun (block, state) => block.isFinished state

/-- The tokens that some block can read, in ascending order. -/
def expected (interleave : Interleave) (states : List Nat) : List String :=
  Alphabet.union ((interleave.blocks.zip states).map fun (block, state) => block.expected state)

/-- The tokens that some block can read in any state. -/
def tokens (interleave : Interleave) : List String :=
  Alphabet.union (interleave.blocks.map Dfa.tokens)

/-- Whether some block can read the token in some state. -/
def mentions (interleave : Interleave) (token : String) : Bool :=
  interleave.blocks.any fun block => block.mentions token

end Interleave

end RelaxSchema
