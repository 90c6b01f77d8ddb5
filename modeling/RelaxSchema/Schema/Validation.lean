import RelaxSchema.Document.Blank
import RelaxSchema.Document.Element
import RelaxSchema.Schema.Basic

/-!
# Validation

A document is validated against a schema element by element: a queue starts with the root, and the
child elements of the one that is taken from its front go to its end. The content of unknown
elements and of those whose content is not described is not looked at. All violations are collected;
a document is valid if there is none.
-/

namespace RelaxSchema

/-! ### Verdicts -/

/-- What the validation of an element or of a document comes to. -/
structure Verdict where
  /-- Whether all is as it should be. -/
  ok : Bool
  /-- The violations that were found. -/
  violations : List Violation

namespace Verdict

/-- The verdict that nothing is wrong. -/
def valid : Verdict := ⟨true, []⟩

/-- The verdict that some violations amount to. -/
def ofViolations (violations : List Violation) : Verdict := ⟨violations.isEmpty, violations⟩

/-- Two verdicts together. -/
def merge (first second : Verdict) : Verdict :=
  ⟨first.ok && second.ok, first.violations ++ second.violations⟩

end Verdict

/-! ### Content -/

/-- The token that a child node stands for; blank text stands for none. -/
def Node.token? : Node → Option String
  | .element name _ _ => some name
  | .text content => if isBlank content then none else some textToken
  | .cdata _ => some textToken

/-- The tokens of some child nodes. -/
def contentTokens (nodes : List Node) : List String := nodes.filterMap Node.token?

namespace ElementSchema

/-- The violations in the content of an element. Where text could stand there may be nothing. -/
def checkContent (schema : ElementSchema) (element : Element) : List Violation :=
  let expression := schema.expression
  let tokens := contentTokens element.children
  let run := tokens.foldl expression.consume expression.initial
  let mayBeEmpty := schema.type = .text && tokens.isEmpty
  let missing := if expression.isFinished run || mayBeEmpty then [] else [expression.incomplete run]
  run.violations.toList ++ missing

/-- The verdict on the attributes of an element. Their names are known, but nothing is required. -/
def checkAttributes (_schema : ElementSchema) (_element : Element) : Verdict := .valid

/-- The verdict on an element that has an entry. -/
def verdict (schema : ElementSchema) (element : Element) : Verdict :=
  let attributes := schema.checkAttributes element
  if schema.type.validatesContent
    then attributes.merge (.ofViolations (schema.checkContent element))
  else attributes

end ElementSchema

namespace Schema

/-- The verdict on an element itself, without that on its child elements. -/
def elementVerdict (schema : Schema) (element : Element) : Verdict :=
  match schema.find? element.name with
  | none =>
    let name := element.name
    .ofViolations
      [{ kind := .unknownTag, message := s!"Unknown tag <{name}>.", element := some name }]
  | some entry => entry.verdict element

/-- The violations in an element itself, those in its child elements not included. -/
def validateElement (schema : Schema) (element : Element) : List Violation :=
  (schema.elementVerdict element).violations

/-- Whether the child elements of an element are validated. -/
def descendsInto (schema : Schema) (element : Element) : Bool :=
  (schema.find? element.name).any fun entry => entry.type.validatesContent

end Schema

/-! ### Documents -/

/-- An element to validate, and the path that leads to it. -/
structure Visit where
  /-- The element. -/
  element : Element
  /-- The path from the root. -/
  path : String

namespace Visit

/-- Visits to some siblings; `seen` counts the siblings before them by their names. -/
def siblings (path : String) : Catalogue Nat → List Element → List Visit
  | _, [] => []
  | seen, element :: rest =>
    let name := element.name
    let index := (seen.find? name).getD 0 + 1
    ⟨element, s!"{path}/{name}[{index}]"⟩ :: siblings path (seen.insert name index) rest

/-- Visits to the child elements that are validated. -/
def next (schema : Schema) (visit : Visit) : List Visit :=
  if schema.descendsInto visit.element then siblings visit.path .empty visit.element.childElements
  else []

/-- The verdict on a visited element, its violations with its path. -/
def verdict (schema : Schema) (visit : Visit) : Verdict :=
  let verdict := schema.elementVerdict visit.element
  { verdict with
    violations := verdict.violations.map fun violation =>
      { violation with path := some visit.path } }

/-- The number of nodes of the visited elements. -/
def total (visits : List Visit) : Nat := Element.countAll (visits.map Visit.element)

theorem map_element_siblings (path : String) (seen : Catalogue Nat) (elements : List Element) :
    (siblings path seen elements).map Visit.element = elements := by
  induction elements generalizing seen with
  | nil => rfl
  | cons element rest ih => simp [siblings, ih]

/-- The elements visited next have fewer nodes than the one they are in. -/
theorem total_next_lt (schema : Schema) (visit : Visit) :
    total (visit.next schema) < visit.element.count := by
  have positive : Node.countAll visit.element.children < visit.element.count := by
    simp [Element.count, Element.toNode, Node.count]
  unfold next
  split
  · rw [total, map_element_siblings]
    exact Nat.lt_of_le_of_lt (Element.countAll_filterMap_element?_le _) positive
  · exact Nat.lt_of_le_of_lt (Nat.zero_le _) positive

theorem total_append (left right : List Visit) :
    total (left ++ right) = total left + total right := by
  rw [total, List.map_append, Element.countAll_append]
  rfl

/-- A queue has fewer nodes after its first element is visited. -/
theorem total_append_next_lt (schema : Schema) (visit : Visit) (queue : List Visit) :
    total (queue ++ visit.next schema) < total (visit :: queue) := by
  have hnext := total_next_lt schema visit
  have hcons : total (visit :: queue) = visit.element.count + total queue := rfl
  rw [total_append, hcons]
  omega

end Visit

namespace Schema

/-- Adds the verdicts on the elements of a queue and on those below them, as they come to its
front. -/
def drain (schema : Schema) (verdict : Verdict) : List Visit → Verdict
  | [] => verdict
  | visit :: queue =>
    schema.drain (verdict.merge (visit.verdict schema)) (queue ++ visit.next schema)
termination_by queue => Visit.total queue
decreasing_by exact Visit.total_append_next_lt schema visit queue

/-- The violation that a document does by its root alone. -/
def checkStart (schema : Schema) (root : Element) : List Violation :=
  if root.name = schema.start then []
  else
    let name := root.name
    let start := schema.start
    [{ kind := .startElement
       message := s!"<{name}> is not the start element <{start}>."
       element := some name
       path := some ("/" ++ name) }]

/-- The verdict on a document with a root. -/
def rootVerdict (schema : Schema) (root : Element) : Verdict :=
  schema.drain (Verdict.valid.merge (.ofViolations (schema.checkStart root)))
    [⟨root, "/" ++ root.name⟩]

/-- The verdict on a document, which must have a root. -/
def documentVerdict (schema : Schema) (root : Option Element) : Except Error Verdict :=
  match root with
  | none => .error (.markup .noRoot)
  | some root => .ok (schema.rootVerdict root)

/-- The violations in a document. -/
def validateRoot (schema : Schema) (root : Element) : List Violation :=
  (schema.rootVerdict root).violations

/-- The violations in a document, which must have a root. -/
def validateDocument (schema : Schema) (root : Option Element) : Except Error (List Violation) :=
  match root with
  | none => .error (.markup .noRoot)
  | some root => .ok (schema.validateRoot root)

end Schema

end RelaxSchema
