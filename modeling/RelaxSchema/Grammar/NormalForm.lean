import RelaxSchema.Grammar.Tree

/-!
# Normal form of content

Expansion leaves choices inside choices, choices of one and repetitions of nothing. Four passes
remove them: choices are flattened, a choice of one becomes that one, text loses a wrapper that
only allows it to be absent, and empty repetitions go away from the inside out.
-/

namespace RelaxSchema.NormalForm

/-- The children of a choice, and a node that is no choice itself. -/
def spliceChoice (tree : Tree) : List Tree :=
  if tree.name = "choice" then tree.children else [tree]

mutual

/-- Splices every choice that is a child of a choice into it. -/
def flattenChoices : Tree → Tree
  | ⟨name, attributes, children⟩ =>
    let children := flattenChoicesAll children
    ⟨name, attributes, if name = "choice" then children.flatMap spliceChoice else children⟩

/-- Flattens the choices of several trees. -/
def flattenChoicesAll : List Tree → List Tree
  | [] => []
  | tree :: rest => flattenChoices tree :: flattenChoicesAll rest

end

/-- The only child of a choice of one; any other node itself. -/
def onlyChoice (tree : Tree) : Tree :=
  match tree with
  | ⟨"choice", _, [only]⟩ => only
  | other => other

mutual

/-- Puts the only alternative of a choice of one in its place. -/
def collapseChoices : Tree → Tree
  | ⟨name, attributes, children⟩ => onlyChoice ⟨name, attributes, collapseChoicesAll children⟩

/-- Collapses the choices of several trees. -/
def collapseChoicesAll : List Tree → List Tree
  | [] => []
  | tree :: rest => collapseChoices tree :: collapseChoicesAll rest

end

/-- Whether a node only allows its content to be absent, once or any number of times. -/
def isSkippable (name : String) : Bool := name = "optional" || name = "zeroOrMore"

mutual

/-- Puts a text in the place of the wrapper whose only child it is. The text may be empty anyway. -/
def unwrapText : Tree → Tree
  | ⟨name, attributes, children⟩ =>
    match isSkippable name, children with
    -- The text is not looked at again in its new place, so an outer wrapper stays.
    | true, [⟨"text", textAttributes, textChildren⟩] =>
      ⟨"text", textAttributes, unwrapTextAll textChildren⟩
    | _, children => ⟨name, attributes, unwrapTextAll children⟩

/-- Unwraps the texts of several trees. -/
def unwrapTextAll : List Tree → List Tree
  | [] => []
  | tree :: rest => unwrapText tree :: unwrapTextAll rest

end

/-- Whether a node is a repetition, one that may be absent included. -/
def isRepetition (name : String) : Bool := isSkippable name || name = "oneOrMore"

mutual

/-- Drops the repetitions of nothing below a tree. -/
def dropEmptyBelow : Tree → Tree
  | ⟨name, attributes, children⟩ => ⟨name, attributes, dropEmpty children⟩

/-- Drops the repetitions of nothing from several trees, innermost first. -/
def dropEmpty : List Tree → List Tree
  | [] => []
  | tree :: rest =>
    let tree := dropEmptyBelow tree
    if isRepetition tree.name && tree.children.isEmpty then dropEmpty rest
    else tree :: dropEmpty rest

end

/-- The normal form of the content of an element. -/
def normalise (blocks : List Tree) : List Tree :=
  dropEmpty (unwrapTextAll (collapseChoicesAll (flattenChoicesAll blocks)))

end RelaxSchema.NormalForm
