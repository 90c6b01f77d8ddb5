import RelaxSchema.Catalogue

/-!
# Content models

What may stand inside an element: a regular expression over tokens. A token is the name of a child
element, or `textToken` for character data. `Model.render` is the written form of a model.
-/

namespace RelaxSchema

/-- The token of character data. It is not reserved: an element of this name has the same token. -/
def textToken : String := "TEXT"

/-- A regular expression over tokens. -/
inductive Model where
  /-- One token. -/
  | token (name : String)
  /-- The blocks one after the other. -/
  | sequence (blocks : List Model)
  /-- One of the blocks; nothing, if there is no block. -/
  | choice (blocks : List Model)
  /-- The blocks merged in any order. -/
  | interleave (blocks : List Model)
  /-- The block or nothing. -/
  | optional (block : Model)
  /-- The block any number of times. -/
  | kleene (block : Model)
  /-- The block at least once. -/
  | plus (block : Model)
  deriving Repr, BEq

namespace Model

instance : Inhabited Model := ⟨.sequence []⟩

/-! ### The tokens of a model -/

mutual

/-- Every token of a model, as often as it occurs, from left to right. -/
def occurrences : Model → List String
  | token name => [name]
  | sequence blocks => occurrencesAll blocks
  | choice blocks => occurrencesAll blocks
  | interleave blocks => occurrencesAll blocks
  | optional block => occurrences block
  | kleene block => occurrences block
  | plus block => occurrences block

/-- The occurrences of all blocks. -/
def occurrencesAll : List Model → List String
  | [] => []
  | block :: rest => occurrences block ++ occurrencesAll rest

end

/-- The distinct tokens of a model, in the order of their first occurrence. -/
def tokens (model : Model) : List String := distinct model.occurrences

/-! ### The written form -/

mutual

/-- The written form of a model: lists in parentheses, repetition marks behind their block. -/
def render : Model → String
  | token name => name
  | sequence blocks => "(" ++ renderAll "," blocks ++ ")"
  | choice blocks => "(" ++ renderAll "|" blocks ++ ")"
  | interleave blocks => "(" ++ renderAll ", " blocks ++ ")[unordered]"
  | optional block => render block ++ "?"
  | kleene block => render block ++ "*"
  | plus block => render block ++ "+"

/-- The written forms of the blocks with a separator between them. -/
def renderAll (separator : String) : List Model → String
  | [] => ""
  | [block] => render block
  | block :: rest => render block ++ separator ++ renderAll separator rest

end

end Model

end RelaxSchema
