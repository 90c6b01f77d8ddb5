/-!
# Violations

What a document does against a schema. Violations are data: they are collected while a document is
validated and end nothing.
-/

namespace RelaxSchema

/-- The ways to violate a schema. -/
inductive ViolationKind where
  /-- The element is not in the schema. -/
  | unknownTag
  /-- The content of the element never holds such a child. -/
  | notAllowed
  /-- The content of the element holds such a child, but not here. -/
  | outOfOrder
  /-- Character data is not allowed here. -/
  | textNotAllowed
  /-- The content ends too early. -/
  | incomplete
  /-- The root is not the start element. -/
  | startElement
  deriving DecidableEq, Repr

/-- The name of a kind in reports. -/
def ViolationKind.name : ViolationKind → String
  | .unknownTag => "unknown-tag"
  | .notAllowed => "not-allowed"
  | .outOfOrder => "out-of-order"
  | .textNotAllowed => "text-not-allowed"
  | .incomplete => "incomplete"
  | .startElement => "start-element"

/-- One violation, with what is known about its place. -/
structure Violation where
  /-- The kind. -/
  kind : ViolationKind
  /-- What is wrong. -/
  message : String
  /-- The element whose content or name is at fault. -/
  element : Option String := none
  /-- The path from the root to that element. -/
  path : Option String := none
  /-- The content model that is violated. -/
  component : Option String := none
  /-- What would have been right. -/
  reason : Option String := none
  deriving DecidableEq, Repr

namespace Violation

/-- A paragraph with a label, if there is something to say. -/
def paragraph (label : String) : Option String → String
  | none => ""
  | some text => "\n\n" ++ label ++ ": " ++ text

/-- The full text of a violation: the message and a paragraph each for reason, path and model. -/
def display (violation : Violation) : String :=
  violation.message ++ paragraph "Reason" violation.reason ++ paragraph "Path" violation.path ++
    paragraph "Schema" violation.component

end Violation

end RelaxSchema
