import RelaxSchema.Grammar.Tree

/-!
# Attribute names

The attributes that an element may have are known by their names only. They are looked for through
groups, choices and repetitions, and nowhere else.
-/

namespace RelaxSchema.Tree

/-- Whether attribute names are looked for inside a node of that name. -/
def isTransparent (name : String) : Bool :=
  name = "group" || name = "choice" || name = "optional" || name = "oneOrMore" ||
    name = "zeroOrMore"

mutual

/-- The name of an attribute, or the names of the attributes in a node that is looked into. -/
def attributesAt : Tree → List String
  | ⟨name, attributes, children⟩ =>
    if name = "attribute" then (attributes.find? "name").toList
    else if isTransparent name then attributeOccurrences children
    else []

/-- The names of the attributes in some nodes, as often as they occur. -/
def attributeOccurrences : List Tree → List String
  | [] => []
  | tree :: rest => attributesAt tree ++ attributeOccurrences rest

end

/-- The distinct names of the attributes in some nodes, in the order of first occurrence. -/
def attributeNames (trees : List Tree) : List String := distinct (attributeOccurrences trees)

end RelaxSchema.Tree
