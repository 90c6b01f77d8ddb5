import RelaxSchema.Error

/-!
# Limits

Upper bounds on what a grammar or a document may ask for. They guard against include cycles,
automata that grow exponentially and oversized documents. Main statement: an amount passes the
check exactly when it is at most its bound (`Limits.check_eq_ok_iff`).
-/

namespace RelaxSchema

/-- A bound for each limited resource. The field values given here are the usual ones. -/
structure Limits where
  /-- The most bytes that one grammar file may have. -/
  maxGrammarSize : Nat := 16 * 1024 * 1024
  /-- The most include links between the entry grammar and a file. -/
  maxIncludeDepth : Nat := 32
  /-- The most states that one deterministic automaton may have. -/
  maxDfaStates : Nat := 10000
  /-- The most elements of a document that may be open at once. -/
  maxXmlDepth : Nat := 1000
  /-- The most bytes that one document may have. -/
  maxXmlSize : Nat := 100 * 1024 * 1024
  deriving DecidableEq, Repr

namespace Limits

/-- Tight limits, for input that is not trusted. -/
def strict : Limits where
  maxGrammarSize := 1024 * 1024
  maxIncludeDepth := 8
  maxDfaStates := 1000
  maxXmlDepth := 100
  maxXmlSize := 10 * 1024 * 1024

/-- Wide limits, for large grammars from a trusted source. -/
def permissive : Limits where
  maxGrammarSize := 256 * 1024 * 1024
  maxIncludeDepth := 256
  maxDfaStates := 1000000
  maxXmlDepth := 10000
  maxXmlSize := 1024 * 1024 * 1024

/-- The bound of a resource. -/
def bound (limits : Limits) : Resource → Nat
  | .grammarSize => limits.maxGrammarSize
  | .includeDepth => limits.maxIncludeDepth
  | .dfaStates => limits.maxDfaStates
  | .xmlDepth => limits.maxXmlDepth
  | .xmlSize => limits.maxXmlSize

/-- Refuses an amount above the bound of its resource. -/
def check (limits : Limits) (resource : Resource) (amount : Nat) : Except Error Unit :=
  if amount ≤ limits.bound resource then .ok ()
  else .error (.limitExceeded resource amount (limits.bound resource))

/-- The check passes exactly the amounts up to the bound. -/
theorem check_eq_ok_iff (limits : Limits) (resource : Resource) (amount : Nat) :
    limits.check resource amount = .ok () ↔ amount ≤ limits.bound resource := by
  unfold check
  split <;> simp_all

end Limits

end RelaxSchema
