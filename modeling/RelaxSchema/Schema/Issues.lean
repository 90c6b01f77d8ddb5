import RelaxSchema.Schema.Basic

/-!
# Schema issues

Warnings about a schema: elements that no document can reach from the start element, and children
that have no entry. A schema with issues can be used.
-/

namespace RelaxSchema

/-- The kinds of issues. -/
inductive IssueKind where
  /-- No chain of children leads from the start element to the element. -/
  | unreachable
  /-- The element is a child of another one and has no entry. -/
  | undeclaredChild
  deriving DecidableEq, Repr

/-- The name of a kind in reports. -/
def IssueKind.name : IssueKind → String
  | .unreachable => "unreachable"
  | .undeclaredChild => "undeclared-child"

/-- A warning about a schema. -/
structure Issue where
  /-- The kind. -/
  kind : IssueKind
  /-- The element that the warning is about. -/
  element : String
  /-- What is wrong. -/
  message : String
  deriving DecidableEq, Repr

namespace Schema

/-- The child elements that the content of an element may hold. -/
def childNames (element : ElementSchema) : List String :=
  element.expression.allowed.filter fun token => token ≠ textToken

/-- The child elements that elements of a name may have; none, if the name has no entry. -/
def childrenOf (schema : Schema) (name : String) : List String :=
  ((schema.find? name).map childNames).getD []

/-- The names of `unmet` that are among some children. -/
def met (children unmet : List String) : List String :=
  unmet.filter fun name => children.contains name

/-- The names of `unmet` that are not among some children. -/
def notMet (children unmet : List String) : List String :=
  unmet.filter fun name => !children.contains name

theorem length_met_add_length_notMet (children unmet : List String) :
    (met children unmet).length + (notMet children unmet).length = unmet.length := by
  have := List.length_eq_countP_add_countP (fun name => children.contains name) (l := unmet)
  simp only [List.countP_eq_length_filter, Bool.not_eq_true, Bool.decide_eq_false] at this
  exact this.symm

/-- The pending names and those that chains of children lead to from them. Names that were not met
yet wait in `unmet`; each is taken from there at most once. -/
def reachFrom (schema : Schema) (unmet pending : List String) : List String :=
  match pending with
  | [] => []
  | name :: rest =>
    let children := schema.childrenOf name
    name :: schema.reachFrom (notMet children unmet) (rest ++ met children unmet)
termination_by unmet.length + pending.length
decreasing_by
  have := length_met_add_length_notMet (schema.childrenOf name) unmet
  simp only [List.length_append, List.length_cons]
  omega

/-- All names that the schema mentions as children. -/
def mentionedNames (schema : Schema) : List String :=
  distinct (schema.elements.values.flatMap childNames)

/-- The names that chains of children lead to from the start element. -/
def reachable (schema : Schema) : List String :=
  schema.reachFrom (schema.mentionedNames.filter fun name => name ≠ schema.start) [schema.start]

/-- The warning about an element that cannot be reached. -/
def unreachableIssue (schema : Schema) (name : String) : Issue :=
  let start := schema.start
  ⟨.unreachable, name, s!"<{name}> is not reachable from the start element <{start}>"⟩

/-- The warning about a child without an entry. -/
def undeclaredIssue (element : ElementSchema) (child : String) : Issue :=
  let name := element.name
  ⟨.undeclaredChild, child, s!"<{child}> is used in <{name}> but has no schema"⟩

/-- The children of an element that have no entry. -/
def undeclaredChildren (schema : Schema) (element : ElementSchema) : List String :=
  (childNames element).filter fun child => !schema.elements.contains child

/-- The warnings about a schema: first the elements that cannot be reached, then the children
without an entry, each in the order of the elements. -/
def issues (schema : Schema) : List Issue :=
  let reachable := schema.reachable
  (schema.elements.names.filter fun name => !reachable.contains name).map schema.unreachableIssue ++
    schema.elements.values.flatMap fun element =>
      (schema.undeclaredChildren element).map (undeclaredIssue element)

end Schema

end RelaxSchema
