import Mathlib
import RelaxSchema.Proofs.Schema.Validation

/-!
# What a verdict depends on

The skeleton of a document has the names of its elements, and where character data stands that is
not blank, but neither attributes nor what the data says, and nothing of what is in an element that
a schema does not describe. `Schema.documentVerdict_eq_of_skeleton_eq` says that documents with the
same skeleton get the same verdict: the same violations in the same order, with the same messages,
hints and paths.

A node is taken to its skeleton or is dropped, and as a token and as an element it is what it was
before (`bind_token?_skeleton?`, `bind_element?_skeleton?`). So validation does not see the change
(`isUnseen_skeleton`).
-/

namespace RelaxSchema

/-- Whether what is in elements of a name is left alone: they have no entry, or one of a type that
does not describe it. -/
def Schema.skips (schema : Schema) (name : String) : Bool :=
  match schema.find? name with
  | none => true
  | some entry => entry.type = .external || entry.type = .notImplemented

/-- What stands for character data. -/
def Node.mark : Node := .cdata ""

mutual

/-- A node without attributes, without the characters of its text and without what is skipped in it;
none is left of blank text. -/
def Node.skeleton? (schema : Schema) : Node → Option Node
  | .element name _ children =>
    some (.element name .empty (if schema.skips name then [] else Node.skeletons schema children))
  | .text content => if isBlank content then none else some .mark
  | .cdata _ => some .mark

/-- What is left of several nodes. -/
def Node.skeletons (schema : Schema) : List Node → List Node
  | [] => []
  | node :: rest => (Node.skeleton? schema node).toList ++ Node.skeletons schema rest

end

namespace Schema

/-- The skeleton of an element. -/
def skeleton (schema : Schema) (element : Element) : Element where
  name := element.name
  children := if schema.skips element.name then [] else Node.skeletons schema element.children

variable {schema : Schema}

theorem descendsInto_eq_not_skips (element : Element) :
    schema.descendsInto element = !schema.skips element.name := by
  rw [descendsInto, skips]
  cases schema.find? element.name with
  | none => rfl
  | some entry =>
    show entry.type.validatesContent = !(entry.type = .external || entry.type = .notImplemented)
    cases entry.type <;> rfl

theorem skeletons_eq_filterMap (nodes : List Node) :
    Node.skeletons schema nodes = nodes.filterMap (Node.skeleton? schema) := by
  induction nodes with
  | nil => rfl
  | cons node rest ih =>
    rw [Node.skeletons, List.filterMap_cons, ih]
    cases Node.skeleton? schema node <;> rfl

theorem children_skeleton {element : Element} (h : schema.descendsInto element = true) :
    (schema.skeleton element).children = element.children.filterMap (Node.skeleton? schema) := by
  have hskips : ¬schema.skips element.name = true := by
    rw [descendsInto_eq_not_skips] at h
    simpa using h
  rw [skeleton, if_neg hskips, skeletons_eq_filterMap]

/-- The token that a node stands for is that of its skeleton. -/
theorem bind_token?_skeleton? (node : Node) :
    (node.skeleton? schema).bind Node.token? = node.token? := by
  cases node with
  | element name attributes children => rfl
  | text content =>
    rw [Node.skeleton?, Node.token?]
    split <;> rfl
  | cdata content => rfl

/-- The element that a node is has the skeleton that the node has. -/
theorem bind_element?_skeleton? (node : Node) :
    (node.skeleton? schema).bind Node.element? = node.element?.map schema.skeleton := by
  cases node with
  | element name attributes children => rfl
  | text content =>
    rw [Node.skeleton?]
    split <;> rfl
  | cdata content => rfl

theorem isUnseen_skeleton (schema : Schema) : schema.IsUnseen schema.skeleton where
  name_eq _ := rfl
  contentTokens_eq element hdescends := by
    rw [children_skeleton hdescends, contentTokens, List.filterMap_filterMap]
    exact List.filterMap_congr fun node _ => bind_token?_skeleton? node
  childElements_eq element hdescends := by
    rw [Element.childElements, children_skeleton hdescends, List.filterMap_filterMap,
      Element.childElements, List.map_filterMap]
    exact List.filterMap_congr fun node _ => bind_element?_skeleton? node

/-- **Documents with the same skeleton get the same verdict.** -/
theorem documentVerdict_eq_of_skeleton_eq (schema : Schema) {left right : Option Element}
    (h : left.map schema.skeleton = right.map schema.skeleton) :
    schema.documentVerdict left = schema.documentVerdict right := by
  have hskeleton : ∀ root : Option Element,
      schema.documentVerdict (root.map schema.skeleton) = schema.documentVerdict root := by
    intro root
    cases root with
    | none => rfl
    | some root => exact schema.isUnseen_skeleton.documentVerdict_eq root
  rw [← hskeleton left, h, hskeleton right]

/-- Two documents that differ in attributes, in blank and in other text, and inside an element of
another schema. -/
theorem documentVerdict_eq_of_skeleton_eq_mixed :
    let expression (name token : String) : Expression :=
      ⟨name, .kleene (.token token), .single ⟨#[⟨[(token, 0)], true⟩]⟩⟩
    let schema : Schema :=
      ⟨.ofList [("a", ⟨.text, ["k"], expression "a" textToken⟩),
        ("x", ⟨.external, [], expression "x" "y"⟩)], "a", rfl⟩
    let left : Element := ⟨"a", .ofList [("k", "1")],
      [.text " ", .text "one", .element "x" .empty [.element "z" .empty []]]⟩
    let right : Element := ⟨"a", .empty, [.cdata "two", .element "x" .empty []]⟩
    schema.skeleton left = schema.skeleton right ∧
      schema.documentVerdict (some left) = schema.documentVerdict (some right) := by
  intro expression schema left right
  have hskeleton : schema.skeleton left = schema.skeleton right := rfl
  exact ⟨hskeleton, documentVerdict_eq_of_skeleton_eq schema (congrArg some hskeleton)⟩

end Schema

end RelaxSchema
