import RelaxSchema.Limits
import RelaxSchema.Document.Element

/-!
# Events

A document is delivered as a sequence of events, from which its tree is built with a stack of open
elements. What an event carries is decoded only when it is used: character data outside the root is
never looked at. Text that comes in several pieces is one text node in the tree.
-/

namespace RelaxSchema.Document

/-- What a tag says about an element. -/
structure Tag where
  /-- The name as it is written. -/
  name : String
  /-- The attributes by their written names, namespace declarations left out. -/
  attributes : Catalogue String := .empty

/-- An event. -/
inductive Event where
  /-- A start tag. -/
  | start (tag : Except MarkupFault Tag)
  /-- The tag of an empty element. -/
  | empty (tag : Except MarkupFault Tag)
  /-- An end tag. -/
  | finish
  /-- A piece of character data. -/
  | text (content : Except MarkupFault String)
  /-- A CDATA section. -/
  | cdata (content : Except MarkupFault String)
  /-- A comment, a processing instruction or a document type. -/
  | remark
  /-- Markup that is malformed; nothing follows it. -/
  | broken

/-- An element whose end tag has not come yet. -/
structure OpenElement where
  /-- What its start tag says. -/
  tag : Tag
  /-- The child nodes so far, in reverse. -/
  reversed : List Node := []

/-- The complete element. -/
def OpenElement.close (element : OpenElement) : Element :=
  ⟨element.tag.name, element.tag.attributes, element.reversed.reverse⟩

/-- A document under construction. -/
structure Builder where
  /-- The open elements, innermost first. -/
  stack : List OpenElement := []
  /-- The root element that was completed last. -/
  root : Option Element := none

namespace Builder

/-- Puts a complete element into the innermost open one; without one, it is the root. -/
def addElement (builder : Builder) (element : Element) : Builder :=
  match builder.stack with
  | [] => { builder with root := some element }
  | top :: rest =>
    { builder with stack := { top with reversed := element.toNode :: top.reversed } :: rest }

/-- What a piece of markup carries, or the failure to decode it. -/
def decoded {α : Type} (content : Except MarkupFault α) : Except Error α :=
  content.mapError Error.markup

/-- Handles an event. -/
def step (limits : Limits) (builder : Builder) (event : Event) : Except Error Builder :=
  match event with
  | .start tag => do
    let tag ← decoded tag
    let stack := { tag := tag } :: builder.stack
    limits.check .xmlDepth stack.length
    .ok { builder with stack := stack }
  | .empty tag => do
    let tag ← decoded tag
    limits.check .xmlDepth (builder.stack.length + 1)
    .ok (builder.addElement ⟨tag.name, tag.attributes, []⟩)
  | .finish =>
    match builder.stack with
    | [] => .ok builder
    | top :: rest => .ok ({ builder with stack := rest }.addElement top.close)
  | .text content =>
    match builder.stack with
    | [] => .ok builder
    | top :: rest => do
      let content ← decoded content
      .ok { builder with
        stack := { top with reversed := Node.joinText content top.reversed } :: rest }
  | .cdata content =>
    match builder.stack with
    | [] => .ok builder
    | top :: rest => do
      let content ← decoded content
      .ok { builder with stack := { top with reversed := .cdata content :: top.reversed } :: rest }
  | .remark => .ok builder
  | .broken => .error (.markup .malformed)

end Builder

/-- The root of the document that events deliver; `none`, if they deliver no element. -/
def ofEvents (limits : Limits) (events : List Event) : Except Error (Option Element) := do
  let builder ← events.foldlM (Builder.step limits) {}
  if builder.stack.isEmpty then .ok builder.root else .error (.markup .unfinished)

end RelaxSchema.Document
